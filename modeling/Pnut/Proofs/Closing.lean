import Pnut.Child.Descriptors
import Pnut.Proofs.FailClosed

/-!
# Which descriptors `close_other_fds` closes

An entry of `keep` is passed over when a larger entry stands before it: the search for the next
descriptor to keep stops at the first entry from the cursor on. The entries of `extra_keep` are
never passed over, and nothing outside the two lists is kept.
-/

namespace Pnut.Child

open Program

variable {File : Type}

/-! ## The first entry from the cursor on -/

section Find

variable {α : Type} [DecidableEq α] {p : α → Bool} {l : List α} {a : α}

/-- Nothing before the first match matches. -/
theorem not_of_mem_takeWhile_ne (h : l.find? p = some a) :
    ∀ b ∈ l.takeWhile (· ≠ a), ¬ p b := by
  induction l with
  | nil => nofun
  | cons c rest ih =>
    rw [List.find?_cons] at h
    intro b hb
    cases hc : p c with
    | true =>
      rw [hc] at h
      obtain rfl : c = a := Option.some.inj h
      rw [List.takeWhile_cons_of_neg (by simp)] at hb
      cases hb
    | false =>
      rw [hc] at h
      by_cases heq : c = a
      · rw [List.takeWhile_cons_of_neg (by simpa using heq)] at hb
        cases hb
      · rw [List.takeWhile_cons_of_pos (by simpa using heq)] at hb
        rcases List.mem_cons.1 hb with rfl | hb
        · simp [hc]
        · exact ih h b hb

/-- The first match does not stand behind another one. -/
theorem eq_or_mem_takeWhile_ne {b : α} (h : l.find? p = some a) (hb : p b) :
    a = b ∨ a ∈ l.takeWhile (· ≠ b) := by
  induction l with
  | nil => cases h
  | cons c rest ih =>
    rw [List.find?_cons] at h
    by_cases heq : c = b
    · subst heq
      rw [hb] at h
      exact .inl (Option.some.inj h).symm
    · rw [List.takeWhile_cons_of_pos (by simpa using heq)]
      cases hc : p c with
      | true =>
        rw [hc] at h
        exact .inr (List.mem_cons.2 (.inl (Option.some.inj h).symm))
      | false =>
        rw [hc] at h
        rcases ih h with rfl | hmem
        · exact .inl rfl
        · exact .inr (List.mem_cons_of_mem _ hmem)

end Find

/-! ## The next descriptor to keep -/

namespace Fd

variable (keep extraKeep : List CInt) (cursor : UInt32)

/-- The entries of `extra_keep` that count. -/
def extraFds : List UInt32 := (extraKeep.filter (3 ≤ ·)).map Int32.toUInt32

/-- What the scan spares: an entry of `extra_keep`, or one of `keep` with only smaller entries
before it. -/
def Spared (n : UInt32) : Prop :=
  n ≠ MAX ∧ (n ∈ extraFds extraKeep ∨ (n ∈ keep.map Int32.toUInt32 ∧
    ∀ m ∈ (keep.map Int32.toUInt32).takeWhile (· ≠ n), m < n))

/-- Where the search in `keep` stops. -/
def nextInKeep : UInt32 := ((keep.map Int32.toUInt32).find? (cursor ≤ ·)).getD MAX

/-- One entry of `extra_keep` in the search. -/
def lowerTo (next : UInt32) (fd : CInt) : UInt32 :=
  if fd < 3 then next
  else if cursor ≤ fd.toUInt32 ∧ fd.toUInt32 < next then fd.toUInt32 else next

theorem nextKeepFd_eq : nextKeepFd cursor keep extraKeep =
    extraKeep.foldl (lowerTo cursor) (nextInKeep keep cursor) := rfl

theorem mem_extraFds_cons {fd : CInt} {n : UInt32} : n ∈ extraFds (fd :: extraKeep) ↔
    3 ≤ fd ∧ n = fd.toUInt32 ∨ n ∈ extraFds extraKeep := by
  unfold extraFds
  by_cases h : 3 ≤ fd
  · rw [List.filter_cons_of_pos (by simpa using h), List.map_cons, List.mem_cons]
    simp [h]
  · rw [List.filter_cons_of_neg (by simpa using h)]
    simp [h]

/-- The search in `extra_keep` ends at its start or at an entry from the cursor on, and at nothing
above either. -/
theorem foldl_lowerTo (next : UInt32) :
    (extraKeep.foldl (lowerTo cursor) next = next ∨
        extraKeep.foldl (lowerTo cursor) next ∈ extraFds extraKeep) ∧
      extraKeep.foldl (lowerTo cursor) next ≤ next ∧
      ∀ n ∈ extraFds extraKeep, cursor ≤ n → extraKeep.foldl (lowerTo cursor) next ≤ n := by
  induction extraKeep generalizing next with
  | nil => exact ⟨.inl rfl, UInt32.le_refl _, nofun⟩
  | cons fd rest ih =>
    obtain ⟨hend, hle, hmin⟩ := ih (lowerTo cursor next fd)
    have hstep : (lowerTo cursor next fd = next ∨
        (3 ≤ fd ∧ lowerTo cursor next fd = fd.toUInt32)) ∧ lowerTo cursor next fd ≤ next ∧
        (3 ≤ fd → cursor ≤ fd.toUInt32 → lowerTo cursor next fd ≤ fd.toUInt32) := by
      unfold lowerTo
      split_ifs with h₁ h₂
      · exact ⟨.inl rfl, UInt32.le_refl _, fun h => absurd h₁ (Int32.not_lt.2 h)⟩
      · exact ⟨.inr ⟨Int32.not_lt.1 h₁, rfl⟩, UInt32.le_of_lt h₂.2, fun _ _ => UInt32.le_refl _⟩
      · exact ⟨.inl rfl, UInt32.le_refl _, fun _ hc => UInt32.not_lt.1 fun hlt => h₂ ⟨hc, hlt⟩⟩
    obtain ⟨hstart, hstep_le, hstep_min⟩ := hstep
    rw [List.foldl_cons]
    refine ⟨?_, UInt32.le_trans hle hstep_le, ?_⟩
    · rcases hend with hend | hend
      · rcases hstart with hstart | ⟨hfd, hstart⟩
        · exact .inl (hend.trans hstart)
        · exact .inr ((mem_extraFds_cons rest).2 (.inl ⟨hfd, hend.trans hstart⟩))
      · exact .inr ((mem_extraFds_cons rest).2 (.inr hend))
    · intro n hn hc
      rcases (mem_extraFds_cons rest).1 hn with ⟨hfd, rfl⟩ | hn
      · exact UInt32.le_trans hle (hstep_min hfd hc)
      · exact hmin n hn hc

/-- The entry where the search in `keep` stops has only smaller entries before it. -/
theorem nextInKeep_spared (h : nextInKeep keep cursor ≠ MAX) :
    Spared keep extraKeep (nextInKeep keep cursor) := by
  unfold nextInKeep at h ⊢
  cases hfind : (keep.map Int32.toUInt32).find? (cursor ≤ ·) with
  | none => exact absurd (by rw [hfind]; rfl) h
  | some n =>
    have hcursor : cursor ≤ n := by simpa using List.find?_some hfind
    refine ⟨by simpa [hfind] using h, .inr ⟨List.mem_of_find?_eq_some hfind, fun m hm => ?_⟩⟩
    have := not_of_mem_takeWhile_ne hfind m hm
    rw [decide_eq_true_eq, UInt32.not_le] at this
    exact UInt32.lt_of_lt_of_le this hcursor

/-- The search comes to nothing above a descriptor it spares. -/
theorem nextKeepFd_le {n : UInt32} (hn : Spared keep extraKeep n) (hc : cursor ≤ n) :
    nextKeepFd cursor keep extraKeep ≤ n := by
  obtain ⟨-, hle, hmin⟩ := foldl_lowerTo extraKeep cursor (nextInKeep keep cursor)
  rw [nextKeepFd_eq]
  rcases hn.2 with hextra | ⟨hmem, hbefore⟩
  · exact hmin n hextra hc
  · refine UInt32.le_trans hle ?_
    unfold nextInKeep
    cases hfind : (keep.map Int32.toUInt32).find? (cursor ≤ ·) with
    | none =>
      have := List.find?_eq_none.1 hfind n hmem
      simp [hc] at this
    | some m =>
      rw [Option.getD_some]
      rcases eq_or_mem_takeWhile_ne hfind (decide_eq_true hc) with rfl | hm
      · exact UInt32.le_refl _
      · exact UInt32.le_of_lt (hbefore m hm)

theorem nextKeepFd_spared (h : nextKeepFd cursor keep extraKeep ≠ MAX) :
    Spared keep extraKeep (nextKeepFd cursor keep extraKeep) := by
  obtain ⟨hend, -, -⟩ := foldl_lowerTo extraKeep cursor (nextInKeep keep cursor)
  rw [nextKeepFd_eq] at h ⊢
  rcases hend with hend | hend
  · rw [hend] at h ⊢
    exact nextInKeep_spared keep extraKeep cursor h
  · exact ⟨h, .inl hend⟩

/-! ## The ranges -/

theorem le_MAX (n : UInt32) : n ≤ MAX := by
  have := n.toNat_lt
  rw [UInt32.le_iff_toNat_le]
  show n.toNat ≤ 4294967295
  omega

theorem succSat_le {m n : UInt32} (hm : m ≠ MAX) (h : m < n) : succSat m ≤ n := by
  have hlt := m.toNat_lt
  have hne : m.toNat ≠ 4294967295 := fun h => hm (UInt32.toNat_inj.1 h)
  rw [UInt32.lt_iff_toNat_lt] at h
  rw [succSat, if_neg hm, UInt32.le_iff_toNat_le, UInt32.toNat_add, UInt32.toNat_one]
  omega

theorem le_sub_one_iff {c m n : UInt32} (hc : c < m) : n ≤ m - 1 ↔ n < m := by
  have hm : 1 ≤ m := by
    rw [UInt32.lt_iff_toNat_lt] at hc
    rw [UInt32.le_iff_toNat_le, UInt32.toNat_one]
    omega
  rw [UInt32.le_iff_toNat_le, UInt32.lt_iff_toNat_lt, UInt32.toNat_sub_of_le _ _ hm,
    UInt32.toNat_one]
  rw [UInt32.le_iff_toNat_le, UInt32.toNat_one] at hm
  omega

theorem le_of_mem_rangesFrom :
    ∀ range ∈ rangesFrom keep extraKeep cursor, cursor ≤ range.1 := by
  induction cursor using rangesFrom.induct keep extraKeep with
  | case1 cursor next hmax =>
    rw [rangesFrom, if_pos hmax]
    exact List.forall_mem_singleton.2 (UInt32.le_refl _)
  | case2 cursor next hmax hlt ih =>
    rw [rangesFrom, if_neg hmax, if_pos hlt]
    refine List.forall_mem_cons.2 ⟨UInt32.le_refl _, fun range hrange => ?_⟩
    exact UInt32.le_trans (UInt32.le_of_lt (lt_succSat_nextKeepFd hmax)) (ih range hrange)
  | case3 cursor next hmax hlt ih =>
    rw [rangesFrom, if_neg hmax, if_neg hlt]
    intro range hrange
    exact UInt32.le_trans (UInt32.le_of_lt (lt_succSat_nextKeepFd hmax)) (ih range hrange)

/-- Behind the next descriptor to keep, the ranges are those from the one after it on. -/
theorem covered_succSat_iff {n : UInt32} (hmax : nextKeepFd cursor keep extraKeep ≠ MAX)
    (hn : nextKeepFd cursor keep extraKeep ≤ n)
    (ih : succSat (nextKeepFd cursor keep extraKeep) ≤ n →
      ((∃ range ∈ rangesFrom keep extraKeep (succSat (nextKeepFd cursor keep extraKeep)),
        range.1 ≤ n ∧ n ≤ range.2) ↔ ¬ Spared keep extraKeep n)) :
    (∃ range ∈ rangesFrom keep extraKeep (succSat (nextKeepFd cursor keep extraKeep)),
      range.1 ≤ n ∧ n ≤ range.2) ↔ ¬ Spared keep extraKeep n := by
  rcases UInt32.lt_or_eq_of_le hn with hlt | rfl
  · exact ih (succSat_le hmax hlt)
  · refine iff_of_false ?_ (not_not_intro (nextKeepFd_spared keep extraKeep cursor hmax))
    rintro ⟨range, hrange, hle, -⟩
    have hfirst := UInt32.le_trans (le_of_mem_rangesFrom keep extraKeep _ range hrange) hle
    have hself : nextKeepFd cursor keep extraKeep <
        succSat (nextKeepFd cursor keep extraKeep) := by
      rw [UInt32.lt_iff_toNat_lt]
      have hlt := (nextKeepFd cursor keep extraKeep).toNat_lt
      have hne : (nextKeepFd cursor keep extraKeep).toNat ≠ 4294967295 := fun h =>
        hmax (UInt32.toNat_inj.1 h)
      rw [succSat, if_neg hmax, UInt32.toNat_add, UInt32.toNat_one]
      omega
    exact UInt32.not_lt.2 hfirst hself

/-- From the cursor on, the ranges are all that the scan does not spare. -/
theorem covered_iff {n : UInt32} (hc : cursor ≤ n) :
    (∃ range ∈ rangesFrom keep extraKeep cursor, range.1 ≤ n ∧ n ≤ range.2) ↔
      ¬ Spared keep extraKeep n := by
  induction cursor using rangesFrom.induct keep extraKeep with
  | case1 cursor next hmax =>
    rw [rangesFrom, if_pos hmax]
    refine iff_of_true ⟨_, List.mem_singleton_self _, hc, le_MAX n⟩ fun hn => ?_
    have hle := nextKeepFd_le keep extraKeep cursor hn hc
    exact hn.1 (UInt32.le_antisymm (le_MAX n) (hmax ▸ hle))
  | case2 cursor next hmax hlt ih =>
    rw [rangesFrom, if_neg hmax, if_pos hlt]
    rw [List.exists_mem_cons_iff, show n ≤ nextKeepFd cursor keep extraKeep - 1 ↔ _ from
      le_sub_one_iff hlt]
    by_cases hn : n < nextKeepFd cursor keep extraKeep
    · refine iff_of_true (.inl ⟨hc, hn⟩) fun hspared => ?_
      exact UInt32.not_lt.2 (nextKeepFd_le keep extraKeep cursor hspared hc) hn
    · rw [← covered_succSat_iff keep extraKeep cursor hmax (UInt32.not_lt.1 hn) ih]
      exact ⟨fun h => h.resolve_left fun h => hn h.2, .inr⟩
  | case3 cursor next hmax hlt ih =>
    rw [rangesFrom, if_neg hmax, if_neg hlt]
    exact covered_succSat_iff keep extraKeep cursor hmax
      (UInt32.le_trans (UInt32.not_lt.1 hlt) hc) ih

/-! ## Against the kernel -/

variable {table table' : Table File} {r : Except Errno Unit}

theorem executes_closeRange {first last : UInt32} (h : first ≤ last) :
    Executes Kernel (closeRange first last) table r table' ↔
      r = .ok () ∧ table' = table.closeRange first last := by
  unfold closeRange
  rw [if_neg (UInt32.not_lt.2 h)]
  constructor
  · intro hexec
    obtain ⟨out, w, hop, hret⟩ := executes_call.1 hexec
    rcases executes_ret.1 hret with ⟨rfl, rfl⟩
    cases hop with
    | closeRange => exact ⟨rfl, rfl⟩
    | closeRangeInvalid hlt => exact absurd h (UInt32.not_le.2 hlt)
  · rintro ⟨rfl, rfl⟩
    exact .call (.closeRange h) (.ret _ _)

/-- The walk closes its ranges, one after the other. -/
theorem executes_closeFrom : ∀ table : Table File,
    Executes Kernel (closeFrom keep extraKeep cursor) table r table' ↔
      r = .ok () ∧ table' = (rangesFrom keep extraKeep cursor).foldl
        (fun t range => t.closeRange range.1 range.2) table := by
  induction cursor using rangesFrom.induct keep extraKeep with
  | case1 cursor next hmax =>
    intro table
    rw [closeFrom, rangesFrom, if_pos hmax, if_pos hmax, executes_closeRange (le_MAX cursor)]
    rfl
  | case2 cursor next hmax hlt ih =>
    intro table
    rw [closeFrom, rangesFrom, if_neg hmax, if_neg hmax, if_pos hlt, if_pos hlt]
    have hle : cursor ≤ nextKeepFd cursor keep extraKeep - 1 :=
      (le_sub_one_iff hlt).2 hlt
    rw [executes_except_bind, List.foldl_cons]
    constructor
    · rintro (⟨err, -, hclose⟩ | ⟨_, w, hclose, hrest⟩)
      · cases ((executes_closeRange hle).1 hclose).1
      · obtain ⟨-, rfl⟩ := (executes_closeRange hle).1 hclose
        exact (ih _).1 hrest
    · intro h
      exact .inr ⟨(), _, (executes_closeRange hle).2 ⟨rfl, rfl⟩, (ih _).2 h⟩
  | case3 cursor next hmax hlt ih =>
    intro table
    rw [closeFrom, rangesFrom, if_neg hmax, if_neg hmax, if_neg hlt, if_neg hlt]
    exact ih table

theorem closeRange_get (first last : UInt32) (fd : CInt) :
    (table.closeRange first last).get fd =
      if first ≤ fd.toUInt32 ∧ fd.toUInt32 ≤ last then none else table.get fd := by
  unfold Table.closeRange
  simp only [← Bool.decide_and]
  exact table.filter_not_get (fun fd => first ≤ fd.toUInt32 ∧ fd.toUInt32 ≤ last) fd

theorem foldl_closeRange_get (ranges : List (UInt32 × UInt32)) (fd : CInt) :
    (ranges.foldl (fun t range => t.closeRange range.1 range.2) table).get fd =
      if ranges.any fun range => range.1 ≤ fd.toUInt32 ∧ fd.toUInt32 ≤ range.2 then none
      else table.get fd := by
  induction ranges generalizing table with
  | nil => rfl
  | cons range rest ih =>
    rw [List.foldl_cons, ih, closeRange_get, List.any_cons]
    by_cases h : range.1 ≤ fd.toUInt32 ∧ fd.toUInt32 ≤ range.2
    · rw [decide_eq_true h, Bool.true_or, if_pos rfl, if_pos h, ite_self]
    · rw [decide_eq_false h, Bool.false_or, if_neg h]

end Fd

/-! ## What stays open -/

theorem toUInt32_inj {fd fd' : CInt} : fd.toUInt32 = fd'.toUInt32 ↔ fd = fd' := by
  refine ⟨fun h => ?_, fun h => h ▸ rfl⟩
  rw [← Int32.toInt32_toUInt32 fd, h, Int32.toInt32_toUInt32]

theorem toNat_toUInt32 {fd : CInt} (h : 0 ≤ fd) : (fd.toUInt32.toNat : ℤ) = fd.toInt := by
  rw [Int32.le_iff_toInt_le, Int32.toInt_zero] at h
  rw [Int32.toNat_toUInt32_of_le (Int32.le_iff_toInt_le.2 h), Int32.toNatClampNeg]
  exact Int.toNat_of_nonneg h

/-- The scan starts at descriptor 3. -/
theorem three_le_toUInt32_iff {fd : CInt} (h : 0 ≤ fd) : 3 ≤ fd.toUInt32 ↔ 3 ≤ fd := by
  have heq := toNat_toUInt32 h
  rw [UInt32.le_iff_toNat_le, Int32.le_iff_toInt_le]
  show 3 ≤ fd.toUInt32.toNat ↔ (3 : ℤ) ≤ fd.toInt
  omega

theorem toUInt32_ne_MAX {fd : CInt} (h : 0 ≤ fd) : fd.toUInt32 ≠ Fd.MAX := by
  intro hmax
  have heq := toNat_toUInt32 h
  have hlt := fd.toInt_lt
  rw [hmax, show Fd.MAX.toNat = 4294967295 from rfl] at heq
  omega

section CloseOtherFds

variable (keep extraKeep : List CInt) (table : Table File)

/-- Every execution returns, having closed what is in neither list and nothing else. -/
def ClosesOthers : Prop :=
  (∃ r table', Executes Kernel (Fd.closeOtherFds keep extraKeep) table r table') ∧
    ∀ r table', Executes Kernel (Fd.closeOtherFds keep extraKeep) table r table' →
      r = .ok () ∧ ∀ fd, table'.get fd =
        if 3 ≤ fd ∧ fd ∉ keep ∧ fd ∉ extraKeep then none else table.get fd

/-- The descriptors that `keep` keeps: only smaller entries stand before them. -/
def Kept (fd : CInt) : Prop :=
  fd ∈ keep ∧ ∀ other ∈ keep.takeWhile (· ≠ fd), other.toUInt32 < fd.toUInt32

instance (fd : CInt) : Decidable (Kept keep fd) :=
  @instDecidableAnd _ _ inferInstance (List.decidableBAll _ _)

theorem spared_iff {fd : CInt} (hnonneg : 0 ≤ fd) (h : 3 ≤ fd) :
    Fd.Spared keep extraKeep fd.toUInt32 ↔ fd ∈ extraKeep ∨ Kept keep fd := by
  have hextra : fd.toUInt32 ∈ Fd.extraFds extraKeep ↔ fd ∈ extraKeep := by
    unfold Fd.extraFds
    simp only [List.mem_map, List.mem_filter, decide_eq_true_eq, toUInt32_inj]
    exact ⟨fun ⟨_, ⟨hmem, _⟩, heq⟩ => heq ▸ hmem, fun hmem => ⟨fd, ⟨hmem, h⟩, rfl⟩⟩
  have htake : (keep.map Int32.toUInt32).takeWhile (· ≠ fd.toUInt32) =
      (keep.takeWhile (· ≠ fd)).map Int32.toUInt32 := by
    rw [List.takeWhile_map]
    simp only [Function.comp_def, ne_eq, toUInt32_inj]
  unfold Fd.Spared Kept
  rw [and_iff_right (toUInt32_ne_MAX hnonneg), hextra, htake, List.forall_mem_map]
  simp only [List.mem_map, toUInt32_inj, exists_eq_right]

/-- What the walk leaves open: what is below 3, in `extra_keep`, or kept by `keep`. -/
theorem foldl_ranges_get (fd : CInt) :
    ((Fd.ranges keep extraKeep).foldl (fun t range => t.closeRange range.1 range.2) table).get fd =
      if 3 ≤ fd ∧ ¬ (fd ∈ extraKeep ∨ Kept keep fd) then none else table.get fd := by
  rw [Fd.foldl_closeRange_get]
  by_cases hnonneg : 0 ≤ fd
  · by_cases h : 3 ≤ fd
    · have hcovered := Fd.covered_iff keep extraKeep 3 ((three_le_toUInt32_iff hnonneg).2 h)
      rw [spared_iff keep extraKeep hnonneg h] at hcovered
      unfold Fd.ranges
      simp only [List.any_eq_true, decide_eq_true_eq, hcovered, h, true_and]
    · rw [if_neg, if_neg fun hfd => h hfd.1]
      rw [List.any_eq_true]
      rintro ⟨range, hrange, hin⟩
      obtain ⟨hle, -⟩ := of_decide_eq_true hin
      exact h ((three_le_toUInt32_iff hnonneg).1 (UInt32.le_trans
        (Fd.le_of_mem_rangesFrom keep extraKeep 3 range hrange) hle))
  · rw [table.get_neg fd (Int32.not_le.1 hnonneg), ite_self, ite_self]

theorem executes_closeOtherFds {r : Except Errno Unit} {table' : Table File} :
    Executes Kernel (Fd.closeOtherFds keep extraKeep) table r table' ↔
      r = .ok () ∧ ∀ fd, table'.get fd =
        if 3 ≤ fd ∧ ¬ (fd ∈ extraKeep ∨ Kept keep fd) then none else table.get fd := by
  unfold Fd.closeOtherFds
  rw [Fd.executes_closeFrom]
  refine and_congr_right fun _ => ?_
  constructor
  · rintro rfl
    exact foldl_ranges_get keep extraKeep table
  · intro h
    exact Table.ext fun fd => (h fd).trans (foldl_ranges_get keep extraKeep table fd).symm

/-- The others are closed, and only the others, when no open descriptor of `keep` is passed over:
one that is not in `extra_keep` too has only smaller entries before it, where a negative entry
counts as a large one. -/
theorem closesOthers_iff : ClosesOthers keep extraKeep table ↔
    ∀ fd, (table.get fd).isSome → 3 ≤ fd → fd ∈ keep → fd ∉ extraKeep →
      ∀ other ∈ keep.takeWhile (· ≠ fd), other.toUInt32 < fd.toUInt32 := by
  unfold ClosesOthers
  simp only [executes_closeOtherFds]
  constructor
  · rintro ⟨⟨r, table', hexec⟩, hclosed⟩ fd hopen h hmem hextra
    obtain ⟨-, hget⟩ := hclosed r table' hexec
    by_contra hkept
    have hlost := hexec.2 fd
    rw [if_pos ⟨h, not_or.2 ⟨hextra, fun hk => hkept hk.2⟩⟩, hget fd,
      if_neg fun hfd => hfd.2.1 hmem] at hlost
    rw [hlost] at hopen
    cases hopen
  · intro hkept
    refine ⟨⟨.ok (), _, rfl, foldl_ranges_get keep extraKeep table⟩, ?_⟩
    rintro r table' ⟨rfl, hget⟩
    refine ⟨rfl, fun fd => ?_⟩
    rw [hget fd]
    by_cases hopen : (table.get fd).isSome
    · by_cases h : 3 ≤ fd
      · have hiff : ¬ (fd ∈ extraKeep ∨ Kept keep fd) ↔ fd ∉ keep ∧ fd ∉ extraKeep := by
          rw [not_or, and_comm]
          refine and_congr_left fun hextra => not_congr ?_
          exact ⟨And.left, fun hmem => ⟨hmem, hkept fd hopen h hmem hextra⟩⟩
        simp only [hiff]
      · rw [if_neg fun hfd => h hfd.1, if_neg fun hfd => h hfd.1]
    · rw [Option.not_isSome_iff_eq_none.1 hopen, ite_self, ite_self]

end CloseOtherFds

/-- With 7 before 5, descriptor 5 is closed: the ranges are 3 to 6 and all from 8 on. -/
theorem unsorted_not_closesOthers :
    ¬ ClosesOthers [7, 5] [] (.ofList [(5, OpenFd.mk () false)]) := by
  rintro ⟨⟨r, table', hexec⟩, hclosed⟩
  have hget := (hclosed r table' hexec).2 5
  rw [((executes_closeOtherFds ..).1 hexec).2 5, if_pos (by decide +kernel),
    if_neg (by decide +kernel)] at hget
  cases hget

end Pnut.Child
