import Pnut.Proofs.Closing
import Pnut.Sandbox.Fd

/-!
# Which files the mapped descriptors refer to

The mappings are carried out one after the other, so a source that an earlier mapping had for a
destination refers to another file by then; and a mapping of a descriptor to itself leaves its
`FD_CLOEXEC` as it was. The descriptors the child closes are exactly the others, since the prepared
list is sorted.
-/

namespace Pnut.Sandbox

open Child (CInt Errno FdAction Fallible Table OpenFd Kernel Kept executes_closeOtherFds)
open Program

variable {File : Type}

/-! ## The actions -/

section Actions

variable {table table' : Table File} {m : FdMapping} {ms : List FdMapping}

/-- The file that a descriptor refers to. -/
def fileOf (table : Table File) (fd : CInt) : Option File := (table.get fd).map OpenFd.file

theorem fileOf_install (dst : CInt) (file : File) (h : 0 ≤ dst) (fd : CInt) :
    fileOf (table.install dst file h) fd = if fd = dst then some file else fileOf table fd := by
  unfold fileOf
  rw [Table.install_get]
  split_ifs <;> rfl

/-- The mappings succeed on `table` and leave `table'`. -/
def Applied (ms : List FdMapping) (table table' : Table File) : Prop :=
  Executes Kernel (Child.Fd.applyActions (ms.map FdMapping.toAction)) table (.ok ()) table'

theorem applied_nil : Applied [] table table' ↔ table' = table := by
  unfold Applied
  rw [List.map_nil]
  exact executes_ret.trans (and_iff_right rfl)

theorem applied_self (h : m.src = m.dst) :
    Applied (m :: ms) table table' ↔ Applied ms table table' := by
  unfold Applied
  rw [List.map_cons, FdMapping.toAction, Child.Fd.applyActions, if_neg (not_not.2 h)]

theorem executes_dup2 {src dst : CInt} {w : Table File} (hne : src ≠ dst) :
    Executes Kernel (Child.Fd.dup2 src dst) table (.ok ()) w ↔
      ∃ (hdst : 0 ≤ dst) (o : OpenFd File), table.get src = some o ∧
        w = table.install dst o.file hdst := by
  unfold Child.Fd.dup2
  constructor
  · intro h
    obtain ⟨out, w', hop, hret⟩ := executes_call.1 h
    obtain ⟨rfl, rfl⟩ := executes_ret.1 hret
    cases hop with
    | dup2 hdst ho _ => exact ⟨hdst, _, ho, rfl⟩
  · rintro ⟨hdst, o, ho, rfl⟩
    exact .call (.dup2 hdst ho hne) (.ret _ _)

theorem applied_cons (hne : m.src ≠ m.dst) :
    Applied (m :: ms) table table' ↔
      ∃ (hdst : 0 ≤ m.dst) (o : OpenFd File), table.get m.src = some o ∧
        Applied ms (table.install m.dst o.file hdst) table' := by
  unfold Applied
  rw [List.map_cons, FdMapping.toAction, Child.Fd.applyActions, if_pos hne, executes_except_bind]
  constructor
  · rintro (⟨err, herr, -⟩ | ⟨_, w, hdup, hrest⟩)
    · cases herr
    · obtain ⟨hdst, o, ho, rfl⟩ := (executes_dup2 hne).1 hdup
      exact ⟨hdst, o, ho, hrest⟩
  · rintro ⟨hdst, o, ho, hrest⟩
    exact .inr ⟨(), _, (executes_dup2 hne).2 ⟨hdst, o, ho, rfl⟩, hrest⟩

/-- What is nobody's destination stays as it was. -/
theorem Applied.get_of_forall_ne (h : Applied ms table table') {fd : CInt}
    (hfd : ∀ m ∈ ms, m.src ≠ m.dst → m.dst ≠ fd) : table'.get fd = table.get fd := by
  induction ms generalizing table with
  | nil => rw [applied_nil.1 h]
  | cons m ms ih =>
    obtain ⟨hm, hms⟩ := List.forall_mem_cons.1 hfd
    by_cases heq : m.src = m.dst
    · exact ih ((applied_self heq).1 h) hms
    · obtain ⟨hdst, o, -, hrest⟩ := (applied_cons heq).1 h
      rw [ih hrest hms]
      exact if_neg (hm heq).symm

/-- A destination stays open at `execve`, unless the mapping was one to itself. -/
theorem Applied.get_dst (h : Applied ms table table') (hnodup : (ms.map FdMapping.dst).Nodup) :
    ∀ m ∈ ms, m.src ≠ m.dst → ∃ file, table'.get m.dst = some ⟨file, false⟩ := by
  induction ms generalizing table with
  | nil => nofun
  | cons m ms ih =>
    obtain ⟨hm, hms⟩ := List.nodup_cons.1 hnodup
    have hother : ∀ l ∈ ms, l.dst ≠ m.dst := fun l hl heq => hm (heq ▸ List.mem_map_of_mem hl)
    by_cases heq : m.src = m.dst
    · exact List.forall_mem_cons.2 ⟨fun hne => absurd heq hne, ih ((applied_self heq).1 h) hms⟩
    · obtain ⟨hdst, o, -, hrest⟩ := (applied_cons heq).1 h
      refine List.forall_mem_cons.2 ⟨fun _ => ⟨o.file, ?_⟩, ih hrest hms⟩
      rw [hrest.get_of_forall_ne fun l hl _ => hother l hl, Table.install_get, if_pos rfl]

/-- A mapping reads its source as the table before has it, if no mapping writes there. -/
theorem Applied.fileOf_dst (h : Applied ms table table') (hnodup : (ms.map FdMapping.dst).Nodup)
    {l : FdMapping} (hl : l ∈ ms) (hsrc : ∀ m ∈ ms, m.src ≠ m.dst → m.dst ≠ l.src) :
    fileOf table' l.dst = fileOf table l.src := by
  induction ms generalizing table with
  | nil => cases hl
  | cons m ms ih =>
    obtain ⟨hm, hms⟩ := List.nodup_cons.1 hnodup
    obtain ⟨hmsrc, hmssrc⟩ := List.forall_mem_cons.1 hsrc
    have hother : ∀ k ∈ ms, k.src ≠ k.dst → k.dst ≠ m.dst := fun k hk _ heq =>
      hm (heq ▸ List.mem_map_of_mem hk)
    by_cases heq : m.src = m.dst
    · have hrest := (applied_self heq).1 h
      rcases List.mem_cons.1 hl with rfl | hl
      · unfold fileOf
        rw [hrest.get_of_forall_ne hother, heq]
      · exact ih hrest hms hl hmssrc
    · obtain ⟨hdst, o, ho, hrest⟩ := (applied_cons heq).1 h
      rcases List.mem_cons.1 hl with rfl | hl
      · unfold fileOf
        rw [hrest.get_of_forall_ne hother, Table.install_get, if_pos rfl, ho]
        rfl
      · rw [ih hrest hms hl hmssrc, fileOf_install, if_neg (hmsrc heq).symm]

/-- No mapping reads what an earlier one has made refer to another file. -/
def Undisturbed (ms : List FdMapping) (table : Table File) : Prop :=
  ms.Pairwise fun earlier later =>
    earlier.dst = later.src → fileOf table earlier.src = fileOf table later.src

/-- The mappings are the simultaneous assignment exactly when none disturbs a later one. -/
theorem Applied.files_iff (h : Applied ms table table') (hnodup : (ms.map FdMapping.dst).Nodup) :
    (∀ l ∈ ms, fileOf table' l.dst = fileOf table l.src) ↔ Undisturbed ms table := by
  induction ms generalizing table with
  | nil => exact iff_of_true nofun .nil
  | cons m ms ih =>
    obtain ⟨hm, hms⟩ := List.nodup_cons.1 hnodup
    have hother : ∀ k ∈ ms, k.src ≠ k.dst → k.dst ≠ m.dst := fun k hk _ heq =>
      hm (heq ▸ List.mem_map_of_mem hk)
    unfold Undisturbed
    rw [List.forall_mem_cons, List.pairwise_cons]
    by_cases heq : m.src = m.dst
    · have hrest := (applied_self heq).1 h
      have hfirst : fileOf table' m.dst = fileOf table m.src := by
        unfold fileOf
        rw [hrest.get_of_forall_ne hother, heq]
      rw [and_iff_right hfirst, ih hrest hms, Undisturbed, and_iff_right]
      intro l _ hl
      rw [heq, hl]
    · obtain ⟨hdst, o, ho, hrest⟩ := (applied_cons heq).1 h
      have hsrc : fileOf table m.src = some o.file := by
        unfold fileOf
        rw [ho]
        rfl
      have hfirst : fileOf table' m.dst = fileOf table m.src := by
        unfold fileOf
        rw [hrest.get_of_forall_ne hother, Table.install_get, if_pos rfl, ho]
        rfl
      have hsame (l : FdMapping)
          (hl : m.dst = l.src → fileOf table m.src = fileOf table l.src) :
          fileOf (table.install m.dst o.file hdst) l.src = fileOf table l.src := by
        rw [fileOf_install]
        split_ifs with hdst
        · rw [← hsrc, hl hdst.symm]
        · rfl
      have hread : ∀ l ∈ ms, m.dst = l.src → fileOf table' l.dst = fileOf table m.src := by
        intro l hl hdst
        rw [hrest.fileOf_dst hms hl (hdst ▸ hother), fileOf_install, if_pos hdst.symm, hsrc]
      rw [and_iff_right hfirst]
      constructor
      · intro hfiles
        have hundisturbed : ∀ l ∈ ms, m.dst = l.src → fileOf table m.src = fileOf table l.src :=
          fun l hl hdst => (hread l hl hdst).symm.trans (hfiles l hl)
        refine ⟨hundisturbed, ?_⟩
        have hpairs := (ih hrest hms).1 fun l hl =>
          (hfiles l hl).trans (hsame l (hundisturbed l hl)).symm
        refine hpairs.imp_of_mem ?_
        intro e l he hl hpair hdst
        rw [← hsame e (hundisturbed e he), ← hsame l (hundisturbed l hl), hpair hdst]
      · rintro ⟨hundisturbed, hpairs⟩ l hl
        have hfiles := (ih hrest hms).2 <| hpairs.imp_of_mem fun {e l} he hl hpair hdst => by
          rw [hsame e (hundisturbed e he), hsame l (hundisturbed l hl), hpair hdst]
        rw [hfiles l hl, hsame l (hundisturbed l hl)]

end Actions

/-! ## The prepared list -/

section Keep

theorem mem_insertFd {fd fd' : CInt} {keep : List CInt} :
    fd' ∈ insertFd fd keep ↔ fd' = fd ∨ fd' ∈ keep := by
  induction keep with
  | nil => simp [insertFd]
  | cons fd₀ rest ih =>
    unfold insertFd
    split_ifs with h₁ h₂
    · simp
    · subst h₂
      simp
    · rw [List.mem_cons, ih, List.mem_cons, or_left_comm]

theorem insertFd_sorted (fd : CInt) {keep : List CInt} (h : keep.Pairwise (· < ·)) :
    (insertFd fd keep).Pairwise (· < ·) := by
  induction keep with
  | nil => exact List.pairwise_singleton ..
  | cons fd₀ rest ih =>
    obtain ⟨hfirst, hrest⟩ := List.pairwise_cons.1 h
    unfold insertFd
    split_ifs with h₁ h₂
    · refine List.pairwise_cons.2 ⟨List.forall_mem_cons.2 ⟨h₁, ?_⟩, h⟩
      exact fun fd' hfd' => Int32.lt_trans h₁ (hfirst fd' hfd')
    · exact h
    · refine List.pairwise_cons.2 ⟨fun fd' hfd' => ?_, ih hrest⟩
      rcases mem_insertFd.1 hfd' with rfl | hfd'
      · exact Int32.lt_of_le_of_ne (Int32.not_lt.1 h₁) (Ne.symm h₂)
      · exact hfirst fd' hfd'

theorem foldl_insertFd (ms : List FdMapping) {keep : List CInt} (h : keep.Pairwise (· < ·)) :
    (ms.foldl (fun keepSet m => insertFd m.dst keepSet) keep).Pairwise (· < ·) ∧
      ∀ fd, fd ∈ ms.foldl (fun keepSet m => insertFd m.dst keepSet) keep ↔
        fd ∈ keep ∨ ∃ m ∈ ms, m.dst = fd := by
  induction ms generalizing keep with
  | nil => exact ⟨h, by simp⟩
  | cons m ms ih =>
    obtain ⟨hsorted, hmem⟩ := ih (insertFd_sorted m.dst h)
    refine ⟨hsorted, fun fd => ?_⟩
    rw [List.foldl_cons, hmem, mem_insertFd, List.exists_mem_cons_iff, or_assoc, or_left_comm,
      eq_comm]

variable (d : FileDescriptors)

theorem keep_sorted : d.prepare.keep.Pairwise (· < ·) :=
  (foldl_insertFd d.mappings (by decide)).1

theorem mem_keep {fd : CInt} :
    fd ∈ d.prepare.keep ↔ fd ∈ ([0, 1, 2] : List CInt) ∨ ∃ m ∈ d.mappings, m.dst = fd :=
  (foldl_insertFd d.mappings (by decide)).2 fd

/-- A sorted list of descriptors keeps all of them. -/
theorem kept_of_sorted {keep : List CInt} (hsorted : keep.Pairwise (· < ·))
    (hnonneg : ∀ fd ∈ keep, 0 ≤ fd) {fd : CInt} (hfd : fd ∈ keep) : Kept keep fd := by
  refine ⟨hfd, fun other hother => ?_⟩
  obtain ⟨before, behind, hkeep, hbefore⟩ := List.eq_append_cons_of_mem hfd
  have hne : ∀ fd' ∈ before, decide (fd' ≠ fd) = true := by
    intro fd' hfd'
    exact decide_eq_true fun heq => hbefore (heq ▸ hfd')
  rw [hkeep, List.takeWhile_append_of_pos hne, List.takeWhile_cons_of_neg (by simp),
    List.append_nil] at hother
  rw [hkeep] at hsorted hnonneg
  have hlt := (List.pairwise_append.1 hsorted).2.2 other hother fd (List.mem_cons_self ..)
  have h₁ := Child.toNat_toUInt32 (hnonneg other (List.mem_append_left _ hother))
  have h₂ := Child.toNat_toUInt32 (hnonneg fd (List.mem_append_right _ (List.mem_cons_self ..)))
  rw [Int32.lt_iff_toInt_lt] at hlt
  rw [UInt32.lt_iff_toNat_lt]
  omega

end Keep

/-! ## The stage -/

section Stage

variable {d : FileDescriptors} {extraKeep : List CInt} {table table' : Table File}

theorem nodup_of_checkDestinations {dstSet : List CInt} {ms : List FdMapping}
    (h : checkDestinations dstSet ms = .ok ()) :
    (ms.map FdMapping.dst).Nodup ∧ ∀ m ∈ ms, m.dst ∉ dstSet := by
  induction ms generalizing dstSet with
  | nil => exact ⟨.nil, nofun⟩
  | cons m ms ih =>
    unfold checkDestinations at h
    split_ifs at h with hm
    obtain ⟨hnodup, hset⟩ := ih h
    refine ⟨List.nodup_cons.2 ⟨?_, hnodup⟩, List.forall_mem_cons.2 ⟨hm, ?_⟩⟩
    · intro hmem
      obtain ⟨l, hl, heq⟩ := List.mem_map.1 hmem
      exact hset l hl (heq ▸ List.mem_cons_self ..)
    · exact fun l hl hmem => hset l hl (List.mem_cons_of_mem _ hmem)

theorem executes_fdStage :
    Executes Kernel (fdStage d.prepare extraKeep) table (.ok ()) table' ↔
      ∃ table₁, Applied d.mappings table table₁ ∧ ∀ fd, table'.get fd =
        if d.closeFds ∧ 3 ≤ fd ∧ ¬ (fd ∈ extraKeep ∨ Kept d.prepare.keep fd) then none
        else table₁.get fd := by
  unfold fdStage
  rw [executes_except_bind, or_iff_right (by rintro ⟨err, herr, -⟩; cases herr)]
  have hrest (table₁ : Table File) :
      Executes Kernel (if d.closeFds then Child.Fd.closeOtherFds d.prepare.keep extraKeep
        else pure () : Fallible Unit) table₁ (.ok ()) table' ↔
      ∀ fd, table'.get fd =
        if d.closeFds ∧ 3 ≤ fd ∧ ¬ (fd ∈ extraKeep ∨ Kept d.prepare.keep fd) then none
        else table₁.get fd := by
    cases d.closeFds with
    | true =>
      rw [if_pos rfl, executes_closeOtherFds, and_iff_right rfl]
      simp only [true_and]
    | false =>
      rw [if_neg Bool.false_ne_true]
      refine (executes_ret.trans (and_iff_right rfl)).trans ?_
      simp only [Bool.false_eq_true, false_and, if_false]
      exact ⟨fun h fd => h ▸ rfl, Table.ext⟩
  constructor
  · rintro ⟨_, table₁, happlied, h⟩
    exact ⟨table₁, happlied, (hrest table₁).1 h⟩
  · rintro ⟨table₁, happlied, h⟩
    exact ⟨(), table₁, happlied, (hrest table₁).2 h⟩

theorem Applied.nonneg {ms : List FdMapping} (h : Applied ms table table') :
    ∀ m ∈ ms, m.src ≠ m.dst → 0 ≤ m.dst := by
  induction ms generalizing table with
  | nil => nofun
  | cons m ms ih =>
    by_cases heq : m.src = m.dst
    · exact List.forall_mem_cons.2 ⟨fun hne => absurd heq hne, ih ((applied_self heq).1 h)⟩
    · obtain ⟨hdst, o, -, hrest⟩ := (applied_cons heq).1 h
      exact List.forall_mem_cons.2 ⟨fun _ => hdst, ih hrest⟩

/-- With open sources and no negative destination, the mappings can succeed. -/
theorem exists_applied {ms : List FdMapping} (hopen : ∀ m ∈ ms, (table.get m.src).isSome)
    (hnonneg : ∀ m ∈ ms, 0 ≤ m.dst) : ∃ table₁, Applied ms table table₁ := by
  induction ms generalizing table with
  | nil => exact ⟨table, applied_nil.2 rfl⟩
  | cons m ms ih =>
    obtain ⟨hsrc, hopen⟩ := List.forall_mem_cons.1 hopen
    obtain ⟨hdst, hnonneg⟩ := List.forall_mem_cons.1 hnonneg
    by_cases heq : m.src = m.dst
    · obtain ⟨table₁, h⟩ := ih hopen hnonneg
      exact ⟨table₁, (applied_self heq).2 h⟩
    · obtain ⟨o, ho⟩ := Option.isSome_iff_exists.1 hsrc
      have hstill : ∀ l ∈ ms, ((table.install m.dst o.file hdst).get l.src).isSome := by
        intro l hl
        rw [Table.install_get]
        split_ifs
        · rfl
        · exact hopen l hl
      obtain ⟨table₁, h⟩ := ih hstill hnonneg
      exact ⟨table₁, (applied_cons heq).2 ⟨hdst, o, ho, h⟩⟩

/-- Whenever the stage succeeds, each destination refers to its source's file after `execve`, and
with `close_fds` no other descriptor from 3 on is open. -/
def MapsFds (d : FileDescriptors) (statusFd : Option CInt) (table : Table File) : Prop :=
  ∀ table', Executes Kernel (fdStage d.prepare [statusFd.getD (-1), -1]) table (.ok ()) table' →
    (∀ m ∈ d.mappings, ∃ o o', table.get m.src = some o ∧ table'.exec.get m.dst = some o' ∧
      o'.file = o.file) ∧
    (d.closeFds → ∀ fd, 3 ≤ fd → (table'.exec.get fd).isSome → ∃ m ∈ d.mappings, m.dst = fd)

theorem exec_get_eq_some {t : Table File} {fd : CInt} {o : OpenFd File} :
    t.exec.get fd = some o ↔ t.get fd = some o ∧ o.cloexec = false := by
  rw [Table.exec, Table.filter_get, Option.filter_eq_some_iff, Bool.not_eq_true']

/-- What the walk leaves of the mapped descriptors is what the actions made of them. -/
theorem kept_dst (hnonneg : ∀ m ∈ d.mappings, 0 ≤ m.dst) {m : FdMapping}
    (hm : m ∈ d.mappings) : Kept d.prepare.keep m.dst := by
  refine kept_of_sorted (keep_sorted d) (fun fd hfd => ?_) ((mem_keep d).2 (.inr ⟨m, hm, rfl⟩))
  rcases (mem_keep d).1 hfd with hstd | ⟨l, hl, rfl⟩
  · revert hstd
    simp only [List.mem_cons, List.not_mem_nil, or_false]
    rintro (rfl | rfl | rfl) <;> decide
  · exact hnonneg l hl

theorem Applied.get_self {ms : List FdMapping} (h : Applied ms table table')
    (hnodup : (ms.map FdMapping.dst).Nodup) {m : FdMapping} (hm : m ∈ ms) (heq : m.src = m.dst) :
    table'.get m.dst = table.get m.src := by
  rw [heq]
  refine h.get_of_forall_ne fun l hl hne hdst => hne ?_
  rw [List.inj_on_of_nodup_map hnodup hl hm hdst, heq]

theorem nonneg_of_isSome {fd : CInt} (h : (table.get fd).isSome) : 0 ≤ fd := by
  by_contra hneg
  rw [table.get_neg fd (Int32.not_le.1 hneg)] at h
  cases h

variable {statusFd : Option CInt}

/-- The mapped destinations, where the mappings do not disturb each other. -/
theorem maps_of_undisturbed {table₁ : Table File} (happlied : Applied d.mappings table table₁)
    (hnodup : (d.mappings.map FdMapping.dst).Nodup)
    (hopen : ∀ m ∈ d.mappings, (table.get m.src).isSome)
    (hundisturbed : Undisturbed d.mappings table)
    (hself : ∀ m ∈ d.mappings, m.src = m.dst → ∀ o ∈ table.get m.src, o.cloexec = false)
    {m : FdMapping} (hm : m ∈ d.mappings) :
    ∃ o o', table.get m.src = some o ∧ table₁.get m.dst = some o' ∧ o'.cloexec = false ∧
      o'.file = o.file := by
  obtain ⟨o, ho⟩ := Option.isSome_iff_exists.1 (hopen m hm)
  by_cases heq : m.src = m.dst
  · exact ⟨o, o, ho, (happlied.get_self hnodup hm heq).trans ho, hself m hm heq o ho, rfl⟩
  · obtain ⟨file, hdst⟩ := happlied.get_dst hnodup m hm heq
    have hfile := (happlied.files_iff hnodup).2 hundisturbed m hm
    unfold fileOf at hfile
    rw [hdst, ho] at hfile
    exact ⟨o, _, ho, hdst, rfl, Option.some.inj hfile⟩

/-- With `close_fds`, what stays open behind the mappings is a destination or close-on-exec. -/
theorem mapped_of_open {table₁ : Table File} (happlied : Applied d.mappings table table₁)
    (hstatus : ∀ fd ∈ statusFd, ∀ o ∈ table.get fd, o.cloexec = true) {fd : CInt} (h : 3 ≤ fd)
    {o : OpenFd File} (hget : table₁.get fd = some o) (hcloexec : o.cloexec = false)
    (hspared : fd ∈ [statusFd.getD (-1), -1] ∨ Kept d.prepare.keep fd) :
    ∃ m ∈ d.mappings, m.dst = fd := by
  by_contra hother
  have hsame : table₁.get fd = table.get fd :=
    happlied.get_of_forall_ne fun m hm _ heq => hother ⟨m, hm, heq⟩
  have hminus : fd ≠ -1 := by
    rintro rfl
    exact absurd h (by decide)
  rcases hspared with hextra | hkept
  · have hfd : statusFd.getD (-1) = fd := by
      simpa [hminus, eq_comm] using hextra
    cases statusFd with
    | none => exact hminus hfd.symm
    | some status =>
      have := hstatus fd (congrArg some hfd) o (hsame ▸ hget)
      rw [hcloexec] at this
      cases this
  · rcases (mem_keep d).1 hkept.1 with hstd | hdst
    · revert h
      simp only [List.mem_cons, List.not_mem_nil, or_false] at hstd
      rcases hstd with rfl | rfl | rfl <;> decide
    · exact hother hdst

/-- Where the stage can succeed, mappings that work do not disturb each other. -/
theorem undisturbed_of_mapsFds (hnodup : (d.mappings.map FdMapping.dst).Nodup)
    (hopen : ∀ m ∈ d.mappings, (table.get m.src).isSome)
    (hnonneg : ∀ m ∈ d.mappings, 0 ≤ m.dst) (h : MapsFds d statusFd table) :
    Undisturbed d.mappings table ∧
      ∀ m ∈ d.mappings, m.src = m.dst → ∀ o ∈ table.get m.src, o.cloexec = false := by
  obtain ⟨table₁, happlied⟩ := exists_applied hopen hnonneg
  obtain ⟨table', htable'⟩ : ∃ table' : Table File, ∀ fd, table'.get fd =
      if d.closeFds ∧ 3 ≤ fd ∧ ¬ (fd ∈ [statusFd.getD (-1), -1] ∨ Kept d.prepare.keep fd) then none
      else table₁.get fd :=
    ⟨_, table₁.filter_not_get fun fd =>
      d.closeFds ∧ 3 ≤ fd ∧ ¬ (fd ∈ [statusFd.getD (-1), -1] ∨ Kept d.prepare.keep fd)⟩
  have hget : ∀ m ∈ d.mappings, table'.get m.dst = table₁.get m.dst := fun m hm => by
    rw [htable', if_neg fun h => h.2.2 (.inr (kept_dst hnonneg hm))]
  have hdst := (h table' (executes_fdStage.2 ⟨table₁, happlied, htable'⟩)).1
  refine ⟨(happlied.files_iff hnodup).1 fun m hm => ?_, fun m hm heq o ho => ?_⟩
  · obtain ⟨o, o', ho, ho', hfile⟩ := hdst m hm
    obtain ⟨ho', -⟩ := exec_get_eq_some.1 ho'
    unfold fileOf
    rw [← hget m hm, ho', ho, Option.map_some, hfile, Option.map_some]
  · obtain ⟨-, o', -, ho', -⟩ := hdst m hm
    obtain ⟨ho', hcloexec⟩ := exec_get_eq_some.1 ho'
    rw [hget m hm, happlied.get_self hnodup hm heq] at ho'
    rwa [Option.some.inj (ho.symm.trans ho')]

/-- Where the stage can succeed, it maps the descriptors as it should exactly when no mapping reads
what an earlier one has overwritten with another file, and no descriptor that is mapped to itself
is close-on-exec. -/
theorem mapsFds_iff (haccepted : checkDestinations [] d.mappings = .ok ())
    (hopen : ∀ m ∈ d.mappings, (table.get m.src).isSome)
    (hstatus : ∀ fd ∈ statusFd, ∀ o ∈ table.get fd, o.cloexec = true) :
    MapsFds d statusFd table ↔
      (∃ m ∈ d.mappings, m.dst < 0) ∨
        (Undisturbed d.mappings table ∧
          ∀ m ∈ d.mappings, m.src = m.dst → ∀ o ∈ table.get m.src, o.cloexec = false) := by
  have hnodup := (nodup_of_checkDestinations haccepted).1
  constructor
  · intro hmaps
    by_cases hneg : ∃ m ∈ d.mappings, m.dst < 0
    · exact .inl hneg
    · exact .inr (undisturbed_of_mapsFds hnodup hopen
        (fun m hm => Int32.not_lt.1 fun hlt => hneg ⟨m, hm, hlt⟩) hmaps)
  · intro hcond table' hexec
    obtain ⟨table₁, happlied, htable'⟩ := executes_fdStage.1 hexec
    have hnonneg : ∀ m ∈ d.mappings, 0 ≤ m.dst := by
      intro m hm
      by_cases heq : m.src = m.dst
      · exact heq ▸ nonneg_of_isSome (hopen m hm)
      · exact happlied.nonneg m hm heq
    obtain ⟨hundisturbed, hself⟩ := hcond.resolve_left fun ⟨m, hm, hneg⟩ =>
      Int32.not_lt.2 (hnonneg m hm) hneg
    constructor
    · intro m hm
      obtain ⟨o, o', ho, ho', hcloexec, hfile⟩ :=
        maps_of_undisturbed happlied hnodup hopen hundisturbed hself hm
      refine ⟨o, o', ho, exec_get_eq_some.2 ⟨?_, hcloexec⟩, hfile⟩
      rw [htable', if_neg fun h => h.2.2 (.inr (kept_dst hnonneg hm)), ho']
    · intro hclose fd h hisSome
      obtain ⟨o, ho⟩ := Option.isSome_iff_exists.1 hisSome
      obtain ⟨ho, hcloexec⟩ := exec_get_eq_some.1 ho
      rw [htable'] at ho
      split_ifs at ho with hclosed
      refine mapped_of_open happlied hstatus h ho hcloexec ?_
      by_contra hspared
      exact hclosed ⟨hclose, h, hspared⟩

end Stage

/-- Descriptors 0 and 1, on two files. -/
def stdTable : Table Bool := .ofList [(0, ⟨false, false⟩), (1, ⟨true, false⟩)]

def swapped : FileDescriptors := ⟨[⟨0, 1⟩, ⟨1, 0⟩], true⟩

/-- After 0 is mapped to 1 and 1 to 0, descriptor 0 refers to the file it referred to before. -/
theorem swapped_not_mapsFds : checkDestinations [] swapped.mappings = .ok () ∧
    (∀ m ∈ swapped.mappings, (stdTable.get m.src).isSome) ∧ ¬ MapsFds swapped none stdTable := by
  refine ⟨rfl, by decide, fun h => ?_⟩
  have hundisturbed := (undisturbed_of_mapsFds (by decide) (by decide) (by decide) h).1
  have hread := (List.pairwise_cons.1 hundisturbed).1 ⟨1, 0⟩ (List.mem_singleton_self _) rfl
  exact absurd hread (by decide)

/-- Descriptor 1 is mapped to 4 before 0 is mapped to 1. -/
def chained : FileDescriptors := ⟨[⟨1, 4⟩, ⟨0, 1⟩], true⟩

theorem chained_mapsFds : MapsFds chained none stdTable := by
  refine (mapsFds_iff rfl (by decide) (by rintro _ ⟨⟩)).2 (.inr ⟨?_, by decide⟩)
  unfold Undisturbed
  decide

end Pnut.Sandbox
