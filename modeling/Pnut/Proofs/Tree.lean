import Pnut.Proofs.Emission

/-!
# The search tree

The loop over the ranges keeps a stack of subtrees, the lowest numbers on top. Each subtree
delivers the verdict of every number from its own `nr` up to that of the subtree below it. Joining
two puts one comparison in front of them, so the joined subtree is the newest instruction, and so
is the root, where the prelude falls into the tree.
-/

namespace Pnut.Kafel

open Bpf (SockFilter eval codeAt_top Closed)
open Libc

namespace ReverseCodegen

/-- The target is the newest instruction, or an action whose return is still to be emitted. -/
def Newest (cg : ReverseCodegen) : Target → Prop
  | .location loc => loc + 1 = cg.buffer.length
  | .action _ => cg.actionLocCache = []

/-- The stack delivers `g n` for every number `n` from its top's `nr` on. -/
def Covers (load : UInt32 → UInt32) (g : UInt32 → UInt32) (cg : ReverseCodegen) :
    List BufEntry → Prop
  | [] => True
  | e :: rest =>
    (∀ n, e.nr ≤ n → (∀ e' ∈ rest.head?, n < e'.nr) → Delivers load cg n (g n) e.action) ∧
      Covers load g cg rest

theorem Covers.mono {load g : UInt32 → UInt32} {cg cg' : ReverseCodegen} (h : Extends cg cg') :
    ∀ {stack : List BufEntry}, Covers load g cg stack → Covers load g cg' stack
  | [], _ => trivial
  | _ :: _, hc => ⟨fun n hn hlt => h.delivers (hc.1 n hn hlt), Covers.mono h hc.2⟩

variable {b : Build} {load g : UInt32 → UInt32} {args : List UInt8}

variable (b load g args) in
/-- What holds of a stack between two joins: neighbours have different targets, and only the top
may start at 0. -/
structure Stack (cg : ReverseCodegen) (stack : List BufEntry) : Prop where
  wf : WellFormed args cg
  valid : ∀ e ∈ stack, Valid cg e.action
  apart : stack.IsChain (·.action ≠ ·.action)
  nr_ne : ∀ e ∈ stack.tail, e.nr ≠ 0
  covers : b.debugAssertions = true → Fits cg → Covers load g cg stack

theorem Stack.mono {cg cg' : ReverseCodegen} {stack : List BufEntry}
    (hs : Stack b load g args cg stack) (h : Step args cg cg') :
    Stack b load g args cg' stack where
  wf := h.wf
  valid e he := h.ext.valid (hs.valid e he)
  apart := hs.apart
  nr_ne := hs.nr_ne
  covers hb hfit := (hs.covers hb (h.ext.fits hfit)).mono h.ext

section Join

variable {cg cg' : ReverseCodegen}

theorem addJump_newest {k : UInt32} {t f : Target} {loc : ℕ} (hwf : WellFormed args cg)
    (ht : Valid cg t) (hf : Valid cg f) (hne : t ≠ f)
    (h : addJump b cg BPF_JGE k t f = .ok (loc, cg')) :
    loc + 1 = cg'.buffer.length ∧ cg.buffer.length ≤ loc := by
  have h₁ := ensureJumpableTarget_spec hwf hf
  have h₂ := ensureJumpableTarget_spec h₁.step.wf (h₁.step.ext.valid ht)
  have h₃ := ensureJumpableTarget_spec (t := .location _) h₂.step.wf h₂.lt
  unfold addJump at h
  rw [if_neg hne] at h
  simp only [] at h
  split_ifs at h
  · simp at h
  · simp at h
  · simp only [Except.ok.injEq, Prod.ext_iff, addInstruction_fst] at h
    obtain ⟨rfl, rfl⟩ := h
    exact ⟨rfl, (h₁.step.trans (h₂.step.trans h₃.step)).ext.length_le⟩

theorem joinEntries_spec {top second e : BufEntry} {rest : List BufEntry} {level : ℕ}
    (hs : Stack b load g args cg (top :: second :: rest))
    (h : joinEntries b cg top second level = .ok (e, cg')) :
    Extends cg cg' ∧ Stack b load g args cg' (e :: rest) ∧ e.nr = top.nr ∧
      Newest cg' e.action ∧ ∀ t, Valid cg t → t ≠ e.action := by
  simp only [joinEntries, bind_eq_ok, Except.ok.injEq, Prod.mk.injEq] at h
  obtain ⟨⟨loc, _⟩, hjump, rfl, rfl⟩ := h
  have hsecond := hs.valid second (by simp)
  have htop := hs.valid top (by simp)
  have hne : second.action ≠ top.action := (List.isChain_cons_cons.1 hs.apart).1.symm
  have hnr := hs.nr_ne second (by simp)
  obtain ⟨hstep, hlt, hd⟩ := addJumpGe_spec hs.wf hsecond htop hjump
  rw [addJumpGe, if_neg hnr] at hjump
  obtain ⟨hloc, hle⟩ := addJump_newest hs.wf hsecond htop hne hjump
  have hfresh : ∀ t, Valid cg t → t ≠ .location loc := by
    rintro t ht rfl
    simp only [Valid] at ht
    omega
  refine ⟨hstep.ext, ⟨hstep.wf, ?_, ?_, ?_, ?_⟩, rfl, hloc, hfresh⟩
  · simp only [List.mem_cons, forall_eq_or_imp]
    exact ⟨hlt, fun e he => hstep.ext.valid (hs.valid e (by simp [he]))⟩
  · rw [List.isChain_cons]
    refine ⟨fun e he => (hfresh e.action (hs.valid e ?_)).symm, hs.apart.tail.tail⟩
    have := List.mem_of_mem_head? he
    simp [this]
  · exact fun e he => hs.nr_ne e (by simp at he ⊢; exact .inr he)
  · intro hb hfit
    obtain ⟨hctop, hcsecond, hcrest⟩ := hs.covers hb (hstep.ext.fits hfit)
    refine ⟨fun n hn hlt => hd hb hfit ?_, hcrest.mono hstep.ext⟩
    split_ifs with hk
    · exact hcsecond n hk hlt
    · exact hctop n hn (by simpa using hk)

theorem mergeEqualLevels_spec : ∀ {rest stack : List BufEntry} {top : BufEntry}
    {cg cg' : ReverseCodegen}, Stack b load g args cg (top :: rest) →
    mergeEqualLevels b cg top rest = .ok (stack, cg') →
    Extends cg cg' ∧ Stack b load g args cg' stack ∧
      stack.head?.map BufEntry.nr = some top.nr ∧
      ∀ t, Valid cg t → t ≠ top.action → ∀ e ∈ stack.head?, t ≠ e.action
  | [], stack, top, cg, cg', hs, h => by
    simp only [mergeEqualLevels, Except.ok.injEq, Prod.mk.injEq] at h
    obtain ⟨rfl, rfl⟩ := h
    exact ⟨.refl cg, hs, rfl, by simp⟩
  | second :: rest, stack, top, cg, cg', hs, h => by
    rw [mergeEqualLevels] at h
    split_ifs at h
    · simp only [bind_eq_ok] at h
      obtain ⟨⟨e, cg₁⟩, hjoin, hmerge⟩ := h
      obtain ⟨hext₁, hs₁, hnr₁, -, hfresh⟩ := joinEntries_spec hs hjoin
      obtain ⟨hext₂, hs₂, hnr₂, happart⟩ := mergeEqualLevels_spec hs₁ hmerge
      exact ⟨hext₁.trans hext₂, hs₂, hnr₁ ▸ hnr₂, fun t ht _ =>
        happart t (hext₁.valid ht) (hfresh t ht)⟩
    · simp only [Except.ok.injEq, Prod.mk.injEq] at h
      obtain ⟨rfl, rfl⟩ := h
      exact ⟨.refl cg, hs, rfl, by simp⟩

theorem mergeAll_spec : ∀ {rest : List BufEntry} {top root : BufEntry} {cg cg' : ReverseCodegen},
    Stack b load g args cg (top :: rest) → (rest = [] → Newest cg top.action) →
    mergeAll b cg top rest = .ok (root, cg') →
    Extends cg cg' ∧ Stack b load g args cg' [root] ∧ root.nr = top.nr ∧ Newest cg' root.action
  | [], top, root, cg, cg', hs, hnew, h => by
    simp only [mergeAll, Except.ok.injEq, Prod.mk.injEq] at h
    obtain ⟨rfl, rfl⟩ := h
    exact ⟨.refl cg, hs, rfl, hnew rfl⟩
  | second :: rest, top, root, cg, cg', hs, _, h => by
    simp only [mergeAll, bind_eq_ok] at h
    obtain ⟨⟨e, cg₁⟩, hjoin, hmerge⟩ := h
    obtain ⟨hext₁, hs₁, hnr₁, hnew₁, -⟩ := joinEntries_spec hs hjoin
    obtain ⟨hext₂, hs₂, hnr₂, hnew₂⟩ := mergeAll_spec hs₁ (fun _ => hnew₁) hmerge
    exact ⟨hext₁.trans hext₂, hs₂, hnr₂.trans hnr₁, hnew₂⟩

end Join

/-! ## The loop over the ranges -/

variable (load) in
/-- The number's verdict is that of the last range that starts at or below it. -/
def Decides (g : UInt32 → UInt32) : List SyscallRange → Prop
  | [] => True
  | r :: rs => (∀ n, r.first ≤ n → (∀ r' ∈ rs.head?, n < r'.first) → g n = rangeVerdict load r) ∧
      Decides g rs

variable (b load g args) in
/-- The state after the loop has taken `ranges`. -/
structure Taken (cg : ReverseCodegen) (stack : List BufEntry) (ranges : List SyscallRange) :
    Prop where
  inOrder : Stack b load g args cg stack
  head : stack.head?.map BufEntry.nr = ranges.head?.map SyscallRange.first
  single : ∀ e, stack = [e] → Newest cg e.action
  start : stack = [] → cg.actionLocCache = []

section Loop

variable {cg cg' : ReverseCodegen} {range : SyscallRange}

theorem ruleStep_spec {stack stack' : List BufEntry} {ranges : List SyscallRange}
    (hp : range.Proper args) (hasc : ∀ r ∈ ranges.head?, range.first < r.first)
    (hdec : Decides load g (range :: ranges)) (ht : Taken b load g args cg stack ranges)
    (h : ruleStep b (stack, cg) range = .ok (stack', cg')) :
    Extends cg cg' ∧ Taken b load g args cg' stack' (range :: ranges) := by
  simp only [ruleStep, bind_eq_ok] at h
  obtain ⟨⟨t, cg₁⟩, hgen, h⟩ := h
  obtain ⟨hs₁, hloc, haction, hd⟩ := generateAction_spec ht.inOrder.wf hp hgen
  have hvalid : Valid cg₁ t := by
    cases t with
    | location loc =>
      have := (hloc loc rfl).1
      simp only [Valid]
      omega
    | action id => exact (haction id rfl).1
  have hg : ∀ n, range.first ≤ n → (∀ e ∈ stack.head?, n < e.nr) →
      g n = rangeVerdict load range := by
    intro n hn hlt
    refine hdec.1 n hn fun r hr => ?_
    have hhead := ht.head
    rw [Option.mem_def.1 hr, Option.map_some, Option.map_eq_some_iff] at hhead
    obtain ⟨e, he, hnr⟩ := hhead
    exact hnr ▸ hlt e he
  cases stack with
  | nil =>
    simp only [Except.ok.injEq, Prod.mk.injEq] at h
    obtain ⟨rfl, rfl⟩ := h
    refine ⟨hs₁.ext, ⟨hs₁.wf, by simpa using hvalid, by simp, by simp, fun _ hfit =>
      ⟨fun n hn _ => ?_, trivial⟩⟩, rfl, ?_, by simp⟩
    · rw [hg n hn (by simp)]
      exact hd hfit load n
    · rintro e ⟨⟩
      cases t with
      | location loc => exact (hloc loc rfl).1
      | action id => exact (haction id rfl).2.2.trans (ht.start rfl)
  | cons top rest =>
    simp only [List.head?_cons, Option.mem_some_iff, forall_eq'] at hg
    simp only [] at h
    split_ifs at h with hsame
    · -- The same target as the subtree on top: nothing was emitted, and it starts lower.
      simp only [bind_eq_ok, Except.ok.injEq, Prod.mk.injEq] at h
      obtain ⟨-, -, rfl, rfl⟩ := h
      have hold := ht.inOrder.valid top (by simp)
      obtain ⟨id, rfl⟩ : ∃ id, t = .action id := by
        cases t with
        | location loc =>
          rw [hsame] at hold
          have := (hloc loc rfl).2
          simp only [Valid] at hold
          omega
        | action id => exact ⟨id, rfl⟩
      obtain ⟨-, -, hcache⟩ := haction id rfl
      refine ⟨hs₁.ext, ⟨hs₁.wf, ?_, ?_, ht.inOrder.nr_ne, fun hb hfit => ?_⟩, rfl, ?_, by simp⟩
      · have := fun e he => hs₁.ext.valid (ht.inOrder.valid e he)
        simpa using this
      · cases rest with
        | nil => simp
        | cons second rest => simpa using ht.inOrder.apart
      · obtain ⟨hctop, hcrest⟩ := ht.inOrder.covers hb (hs₁.ext.fits hfit)
        refine ⟨fun n hn hlt => ?_, hcrest.mono hs₁.ext⟩
        by_cases hn' : top.nr ≤ n
        · exact hs₁.ext.delivers (hctop n hn' hlt)
        · rw [hg n hn (not_le.1 hn'), hsame]
          exact hd hfit load n
      · rintro e ⟨⟩
        have := ht.single top rfl
        rw [hsame] at this
        rw [hsame]
        exact hcache.trans this
    · simp only [bind_eq_ok, Except.ok.injEq, Prod.mk.injEq] at h
      obtain ⟨⟨merged, cg₂⟩, hmerge, rfl, rfl⟩ := h
      obtain ⟨hext₂, hs₂, hnr₂, happart⟩ := mergeEqualLevels_spec (ht.inOrder.mono hs₁) hmerge
      obtain ⟨e, tl, rfl⟩ : ∃ e tl, merged = e :: tl := by
        cases merged with
        | nil => simp at hnr₂
        | cons e tl => exact ⟨e, tl, rfl⟩
      have hnr₂ : e.nr = top.nr := by simpa using hnr₂
      have hne : top.nr ≠ 0 := by
        have hhead := ht.head
        rw [List.head?_cons, Option.map_some, eq_comm, Option.map_eq_some_iff] at hhead
        obtain ⟨r, hr, hnr⟩ := hhead
        exact hnr ▸ (lt_of_le_of_lt UInt32.zero_le (hasc r hr)).ne'
      refine ⟨hs₁.ext.trans hext₂, ⟨hs₂.wf, ?_, ?_, ?_, fun hb hfit => ?_⟩, rfl, by simp, by simp⟩
      · simp only [List.mem_cons, forall_eq_or_imp]
        exact ⟨hext₂.valid hvalid, by simpa using hs₂.valid⟩
      · exact .cons_cons (happart t hvalid (Ne.symm hsame) e rfl) hs₂.apart
      · simp only [List.tail_cons, List.mem_cons, forall_eq_or_imp]
        exact ⟨hnr₂ ▸ hne, hs₂.nr_ne⟩
      · refine ⟨fun n hn hlt => hext₂.delivers ?_, hs₂.covers hb hfit⟩
        rw [hg n hn (hnr₂ ▸ hlt e rfl)]
        exact hd (hext₂.fits hfit) load n

end Loop

section Rules

variable {cg : ReverseCodegen} {ranges : List SyscallRange}

theorem taken_new : Taken b load g args .new [] [] where
  inOrder := ⟨wellFormed_new args, by simp, by simp, by simp, fun _ _ => trivial⟩
  head := rfl
  single := by simp
  start _ := rfl

/-- The loop runs from the highest range down. -/
theorem foldrM_ruleStep_spec : ∀ {ranges : List SyscallRange} {stack : List BufEntry}
    {cg : ReverseCodegen}, (∀ r ∈ ranges, r.Proper args) →
    ranges.IsChain (·.first < ·.first) → Decides load g ranges →
    ranges.foldrM (fun range state => ruleStep b state range) ([], .new) = .ok (stack, cg) →
    Taken b load g args cg stack ranges
  | [], stack, cg, _, _, _, h => by
    obtain ⟨rfl, rfl⟩ : [] = stack ∧ new = cg := by simpa [pure, Except.pure] using h
    exact taken_new
  | r :: rs, stack, cg, hp, hasc, hdec, h => by
    simp only [List.foldrM_cons, bind_eq_ok] at h
    obtain ⟨⟨stack₁, cg₁⟩, hrs, hr⟩ := h
    have ht := foldrM_ruleStep_spec (fun r hr => hp r (by simp [hr]))
      (List.isChain_cons.1 hasc).2 hdec.2 hrs
    exact (ruleStep_spec (hp r (by simp)) (List.isChain_cons.1 hasc).1 hdec ht hr).2

theorem generateRules_spec {root : Target} (hp : ∀ r ∈ ranges, r.Proper args)
    (hasc : ranges.IsChain (·.first < ·.first)) (hdec : Decides load g ranges)
    (h : generateRules b .new ranges = .ok (root, cg)) :
    WellFormed args cg ∧ Valid cg root ∧ Newest cg root ∧
      (b.debugAssertions = true → Fits cg → ∀ n, Delivers load cg n (g n) root) := by
  unfold generateRules at h
  split_ifs at h
  · simp at h
  simp only [List.foldlM_reverse, bind_eq_ok] at h
  obtain ⟨⟨stack, cg₁⟩, hloop, h⟩ := h
  have ht := foldrM_ruleStep_spec hp hasc hdec hloop
  cases stack with
  | nil => simp at h
  | cons top rest =>
    simp only [] at h
    split_ifs at h with hnr
    · simp at h
    simp only [bind_eq_ok, Except.ok.injEq, Prod.mk.injEq] at h
    obtain ⟨⟨e, _⟩, hall, rfl, rfl⟩ := h
    obtain ⟨-, hs, hroot, hnew⟩ :=
      mergeAll_spec ht.inOrder (fun hnil => ht.single top (by rw [hnil])) hall
    refine ⟨hs.wf, hs.valid e (by simp), hnew,
      fun hb hfit n => (hs.covers hb hfit).1 n ?_ (by simp)⟩
    rw [hroot, not_not.1 hnr]
    exact UInt32.zero_le

end Rules

/-! ## The program -/

/-- The range that has the number: the last one that starts at or below it. -/
def pickRange : List SyscallRange → UInt32 → Option SyscallRange
  | [], _ => none
  | r :: rs, n =>
    match pickRange rs n with
    | some r' => some r'
    | none => if r.first ≤ n then some r else none

theorem pickRange_eq_none {n : UInt32} : ∀ {ranges : List SyscallRange},
    ranges.IsChain (·.first < ·.first) → (∀ r ∈ ranges.head?, n < r.first) →
    pickRange ranges n = none
  | [], _, _ => rfl
  | r :: rs, hasc, hlt => by
    have hn := hlt r rfl
    rw [pickRange, pickRange_eq_none (List.isChain_cons.1 hasc).2 fun r' hr' =>
      hn.trans ((List.isChain_cons.1 hasc).1 r' hr'), if_neg (not_le.2 hn)]

theorem decides_of_pickRange : ∀ {ranges : List SyscallRange},
    ranges.IsChain (·.first < ·.first) →
    (∀ n r, pickRange ranges n = some r → g n = rangeVerdict load r) → Decides load g ranges
  | [], _, _ => trivial
  | r :: rs, hasc, hg => by
    refine ⟨fun n hn hlt => hg n r ?_,
      decides_of_pickRange (List.isChain_cons.1 hasc).2 fun n r' hr' => hg n r' ?_⟩
    · rw [pickRange, pickRange_eq_none (List.isChain_cons.1 hasc).2 hlt, if_pos hn]
    · rw [pickRange, hr']

theorem resolveTarget_newest {cg : ReverseCodegen} {t : Target} (h : Newest cg t) :
    (cg.resolveTarget t).1 + 1 = (cg.resolveTarget t).2.buffer.length := by
  cases t with
  | location loc => exact h
  | action id =>
    simp only [Newest] at h
    simp [resolveTarget, resolveAction, h, emitAction, emitStmt, addInstruction, currentLoc]

section Prelude

variable {cg : ReverseCodegen}

theorem emitArchPrelude_buffer (cg : ReverseCodegen) : cg.emitArchPrelude.buffer =
    ⟨Bpf.ldWAbs, 0, 0, OFFSET_ARCH⟩ :: ⟨Bpf.jmpJeqK, 1, 0, AUDIT_ARCH_X86_64⟩ ::
      ⟨Bpf.retK, 0, 0, actionToRet .killProcess⟩ :: ⟨Bpf.ldWAbs, 0, 0, OFFSET_NR⟩ :: cg.buffer := by
  simp [emitArchPrelude, emitStmt, addInstruction, actionToRet]

/-- The prelude kills on a foreign architecture, and else falls into the code with the syscall
number in the accumulator. -/
theorem exec_emitArchPrelude (cg : ReverseCodegen) (load : UInt32 → UInt32) :
    Bpf.exec cg.emitArchPrelude.buffer load =
      if load OFFSET_ARCH = AUDIT_ARCH_X86_64 then eval load cg.buffer 0 (load OFFSET_NR)
      else some (actionToRet .killProcess) := by
  rw [Bpf.exec_eq_eval, emitArchPrelude_buffer, Bpf.eval_of_act_go (Bpf.act_ld ..), List.drop_zero,
    Bpf.eval_of_act_go (Bpf.act_of_condition _ _ (Bpf.condition_jeq ..))]
  by_cases harch : load OFFSET_ARCH = AUDIT_ARCH_X86_64
  · simp only [harch, beq_self_eq_true, if_true]
    exact Bpf.eval_of_act_go (Bpf.act_ld ..)
  · simp only [beq_false_of_ne harch, Bool.false_eq_true, if_false, if_neg harch]
    exact Bpf.eval_of_act_ret (Bpf.act_ret ..)

theorem emitArchPrelude_spec (hwf : WellFormed args cg) (hpos : 0 < cg.buffer.length) :
    Closed cg.emitArchPrelude.buffer ∧ ∀ i ∈ cg.emitArchPrelude.buffer, Emitted args i := by
  rw [emitArchPrelude_buffer]
  constructor
  · refine ⟨.next (.inl rfl) (by simp), .cond (.inl rfl) (by simp) (by simp), .ret rfl,
      .next (.inl rfl) hpos, hwf.closed⟩
  · simp only [List.mem_cons, forall_eq_or_imp]
    exact ⟨.load rfl (.inr (.inl rfl)), .cond (.inl rfl), .ret rfl ⟨.killProcess, rfl⟩,
      .load rfl (.inl rfl), hwf.emitted⟩

end Prelude

theorem generate_spec {policy : Policy} {ranges : List SyscallRange} {prog : List SockFilter}
    (hranges : normalizeRanges b policy = .ok ranges) (hp : ∀ r ∈ ranges, r.Proper args)
    (hasc : ranges.IsChain (·.first < ·.first)) (h : policy.codegen b = .ok prog) :
    Closed prog ∧ (∀ i ∈ prog, Emitted args i) ∧
      (∀ load, load OFFSET_ARCH ≠ AUDIT_ARCH_X86_64 →
        Bpf.exec prog load = some (actionToRet .killProcess)) ∧
      (b.debugAssertions = true → ∀ load r, load OFFSET_ARCH = AUDIT_ARCH_X86_64 →
        pickRange ranges (load OFFSET_NR) = some r →
        Bpf.exec prog load = some (rangeVerdict load r)) := by
  simp only [Policy.codegen, generate, bind_eq_ok, hranges, Except.ok.injEq, exists_eq_left'] at h
  obtain ⟨⟨_, _⟩, ⟨⟨root, cg⟩, hrules, h⟩, rfl⟩ := h
  simp only [] at h
  split_ifs at h with hsize
  · simp at h
  simp only [Except.ok.injEq, Prod.mk.injEq] at h
  obtain ⟨rfl, -⟩ := h
  let verdict load n := ((pickRange ranges n).map (rangeVerdict load)).getD 0
  have hdec load : Decides load (verdict load) ranges :=
    decides_of_pickRange hasc fun n r hr => by simp [verdict, hr]
  obtain ⟨hwf, hvalid, hnew, -⟩ := generateRules_spec hp hasc (hdec fun _ => 0) hrules
  have hres := resolveTarget_spec hwf hvalid
  have htop := resolveTarget_newest hnew
  obtain ⟨hclosed, hemitted⟩ := emitArchPrelude_spec hres.step.wf (by omega)
  refine ⟨hclosed, hemitted, fun load harch => ?_, fun hb load r harch hr => ?_⟩
  · rw [exec_emitArchPrelude, if_neg harch]
  · have hfit : Fits (cg.resolveTarget root).2 := by
      rw [emitArchPrelude_buffer] at hsize
      simp only [List.length_cons] at hsize
      unfold Fits
      omega
    have hd := (generateRules_spec hp hasc (hdec load) hrules).2.2.2 hb
      (hres.step.ext.fits hfit) (load OFFSET_NR)
    have := (hres.delivers hfit hd).2
    rw [← htop, codeAt_top] at this
    rw [exec_emitArchPrelude, if_pos harch, this]
    simp [verdict, hr]

end ReverseCodegen

end Pnut.Kafel
