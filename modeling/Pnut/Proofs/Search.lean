import Pnut.Lib.SearchTree
import Pnut.Proofs.Verdict
import Pnut.Proofs.Partition

/-!
# What the search tree selects

The loop over the ranges grows a search tree: the targets of the ranges are its leaves, a call of
`addJumpGe` is a node. The stack of the code and the stack of trees take the same steps, so the
tree the code builds is the tree of the ranges' first numbers and targets.
-/

namespace Pnut.Kafel

open Bpf (SockFilter eval codeAt)
open Libc

namespace ReverseCodegen

variable {b : Build}

variable (b) in
/-- The target stands for the tree: a leaf is the target itself, a node the target of a call of
`addJumpGe` on targets that stand for its subtrees. -/
inductive Grown : ReverseCodegen → Target → SearchTree UInt32 Target → Prop
  | leaf {cg : ReverseCodegen} (t : Target) : Grown cg t (.leaf t)
  | node {cg cg' cg'' : ReverseCodegen} {n : UInt32} {t f : Target} {loc : ℕ}
      {ge lt : SearchTree UInt32 Target} (ht : Grown cg t ge) (hf : Grown cg f lt)
      (hjump : addJumpGe b cg n t f = .ok (loc, cg')) (hext : Extends cg' cg'') :
      Grown cg'' (.location loc) (.node n ge lt)

variable (b) in
/-- The loop has taken `ranges`, and `targets` are what `generateAction` gave for them. -/
inductive Looped : List SyscallRange → List Target → List BufEntry × ReverseCodegen → Prop
  | nil : Looped [] [] ([], .new)
  | cons {ranges : List SyscallRange} {targets : List Target} {buf : List BufEntry}
      {cg cg' : ReverseCodegen} {range : SyscallRange} {t : Target}
      {state : List BufEntry × ReverseCodegen} (h : Looped ranges targets (buf, cg))
      (haction : cg.generateAction range = .ok (t, cg'))
      (hstep : ruleStep b (buf, cg) range = .ok state) :
      Looped (range :: ranges) (t :: targets) state

theorem Grown.mono {cg cg' : ReverseCodegen} {t : Target} {tree : SearchTree UInt32 Target}
    (h : Grown b cg t tree) (hext : Extends cg cg') : Grown b cg' t tree := by
  rcases h with t | ⟨ht, hf, hjump, hext'⟩
  · exact .leaf t
  · exact .node ht hf hjump (hext'.trans hext)

theorem Grown.eq_of_leaf {cg : ReverseCodegen} {t t' : Target}
    (h : Grown b cg t (.leaf t')) : t = t' := by
  rcases h
  rfl

variable (b) in
/-- An entry of the stack is a part of the tree. -/
structure Represents (cg : ReverseCodegen) (e : BufEntry) (p : SearchTree.Part UInt32 Target) :
    Prop where
  level : e.level = p.level
  nr : e.nr = p.first
  grown : Grown b cg e.action p.tree

theorem Represents.mono {cg cg' : ReverseCodegen} (hext : Extends cg cg') :
    ∀ {stack : List BufEntry} {parts : List (SearchTree.Part UInt32 Target)},
    stack.Forall₂ (Represents b cg) parts → stack.Forall₂ (Represents b cg') parts :=
  fun h => h.imp fun _ _ he => ⟨he.level, he.nr, he.grown.mono hext⟩

section Steps

variable {load g : UInt32 → UInt32} {args : List UInt8} {cg cg' : ReverseCodegen}

theorem joinEntries_represents {top second e : BufEntry} {level : ℕ}
    {ptop psecond : SearchTree.Part UInt32 Target} (htop : Represents b cg top ptop)
    (hsecond : Represents b cg second psecond)
    (h : joinEntries b cg top second level = .ok (e, cg')) :
    Represents b cg' e (ptop.join psecond level) := by
  unfold joinEntries at h
  simp only [bind_eq_ok, Except.ok.injEq, Prod.mk.injEq] at h
  obtain ⟨⟨loc, _⟩, hjump, rfl, rfl⟩ := h
  rw [hsecond.nr] at hjump
  exact ⟨rfl, htop.nr, .node hsecond.grown htop.grown hjump (.refl _)⟩

theorem mergeEqualLevels_represents : ∀ {rest stack : List BufEntry} {top : BufEntry}
    {prest : List (SearchTree.Part UInt32 Target)} {ptop : SearchTree.Part UInt32 Target}
    {cg cg' : ReverseCodegen}, Stack b load g args cg (top :: rest) →
    Represents b cg top ptop → rest.Forall₂ (Represents b cg) prest →
    mergeEqualLevels b cg top rest = .ok (stack, cg') →
    stack.Forall₂ (Represents b cg') (SearchTree.mergeEqual ptop prest)
  | [], stack, top, _, ptop, cg, cg', hs, htop, .nil, h => by
    simp only [mergeEqualLevels, Except.ok.injEq, Prod.mk.injEq] at h
    obtain ⟨rfl, rfl⟩ := h
    exact .cons htop .nil
  | second :: rest, stack, top, _, ptop, cg, cg', hs, htop, .cons hsecond hrest, h => by
    unfold SearchTree.mergeEqual
    rw [mergeEqualLevels, hsecond.level, htop.level] at h
    split_ifs at h ⊢ with hlevel
    · simp only [bind_eq_ok] at h
      obtain ⟨⟨e, cg₁⟩, hjoin, hmerge⟩ := h
      obtain ⟨hext₁, hs₁, -⟩ := joinEntries_spec hs hjoin
      exact mergeEqualLevels_represents hs₁ (joinEntries_represents htop hsecond hjoin)
        (Represents.mono hext₁ hrest) hmerge
    · simp only [Except.ok.injEq, Prod.mk.injEq] at h
      obtain ⟨rfl, rfl⟩ := h
      exact .cons htop (.cons hsecond hrest)

theorem mergeAll_represents : ∀ {rest : List BufEntry} {top root : BufEntry}
    {prest : List (SearchTree.Part UInt32 Target)} {ptop : SearchTree.Part UInt32 Target}
    {cg cg' : ReverseCodegen}, Stack b load g args cg (top :: rest) →
    Represents b cg top ptop → rest.Forall₂ (Represents b cg) prest →
    mergeAll b cg top rest = .ok (root, cg') →
    Represents b cg' root (SearchTree.mergeAll ptop prest)
  | [], _, _, _, _, _, _, _, htop, .nil, h => by
    simp only [mergeAll, Except.ok.injEq, Prod.mk.injEq] at h
    obtain ⟨rfl, rfl⟩ := h
    exact htop
  | second :: rest, top, _, _, ptop, cg, cg', hs, htop, .cons hsecond hrest, h => by
    simp only [mergeAll, bind_eq_ok] at h
    obtain ⟨⟨e, cg₁⟩, hjoin, hmerge⟩ := h
    obtain ⟨hext₁, hs₁, -⟩ := joinEntries_spec hs hjoin
    rw [hsecond.level] at hjoin
    unfold SearchTree.mergeAll
    exact mergeAll_represents hs₁ (joinEntries_represents htop hsecond hjoin)
      (Represents.mono hext₁ hrest) hmerge

/-- The range's own target is the new leaf, or lengthens the leaf on top. -/
theorem ruleStep_represents {range : SyscallRange} {ranges : List SyscallRange} {t : Target}
    {stack stack' : List BufEntry} {cg₁ : ReverseCodegen} {steps : List (UInt32 × Target)}
    (hp : range.Proper args) (ht : Taken b load g args cg stack ranges)
    (hrep : stack.Forall₂ (Represents b cg) (SearchTree.stack (SearchTree.coalesce steps)))
    (haction : cg.generateAction range = .ok (t, cg₁))
    (h : ruleStep b (stack, cg) range = .ok (stack', cg')) :
    stack'.Forall₂ (Represents b cg')
      (SearchTree.stack (SearchTree.coalesce ((range.first, t) :: steps))) := by
  obtain ⟨hs₁, -⟩ := generateAction_spec ht.inOrder.wf hp haction
  have hrep := Represents.mono hs₁.ext hrep
  simp only [ruleStep, haction, bind_eq_ok, Except.ok.injEq, exists_eq_left'] at h
  unfold SearchTree.coalesce
  rcases hsteps : SearchTree.coalesce steps with _ | ⟨⟨k', t'⟩, steps'⟩
  · rw [hsteps] at hrep
    obtain rfl := List.forall₂_nil_right_iff.1 hrep
    simp only [Except.ok.injEq, Prod.mk.injEq] at h
    obtain ⟨rfl, rfl⟩ := h
    exact .cons ⟨rfl, rfl, .leaf t⟩ .nil
  · rw [hsteps] at hrep
    unfold SearchTree.stack at hrep
    rcases hrep with _ | @⟨top, _, rest, _, htop, hrest⟩
    have hleaf : top.action = t' := htop.grown.eq_of_leaf
    simp only [hleaf] at h
    show stack'.Forall₂ (Represents b cg') (SearchTree.stack (if t' = t then _ else _))
    split_ifs at h ⊢ with hsame
    · simp only [bind_eq_ok, Except.ok.injEq, Prod.mk.injEq] at h
      obtain ⟨-, -, rfl, rfl⟩ := h
      exact .cons ⟨htop.level, rfl, .leaf t'⟩ hrest
    · simp only [bind_eq_ok, Except.ok.injEq, Prod.mk.injEq] at h
      obtain ⟨⟨merged, cg₂⟩, hmerge, rfl, rfl⟩ := h
      have := mergeEqualLevels_represents (ht.inOrder.mono hs₁) htop hrest hmerge
      exact .cons ⟨rfl, rfl, .leaf t⟩ this

/-- The first number of each range with its target. -/
def leaves (ranges : List SyscallRange) (targets : List Target) : List (UInt32 × Target) :=
  (ranges.map SyscallRange.first).zip targets

theorem foldrM_ruleStep_looped : ∀ {ranges : List SyscallRange} {stack : List BufEntry}
    {cg : ReverseCodegen}, (∀ r ∈ ranges, r.Proper args) →
    ranges.IsChain (·.first < ·.first) → Decides load g ranges →
    ranges.foldrM (fun range state => ruleStep b state range) ([], .new) = .ok (stack, cg) →
    ∃ targets, Looped b ranges targets (stack, cg) ∧ targets.length = ranges.length ∧
      stack.Forall₂ (Represents b cg)
        (SearchTree.stack (SearchTree.coalesce (leaves ranges targets)))
  | [], stack, cg, _, _, _, h => by
    obtain ⟨rfl, rfl⟩ : [] = stack ∧ new = cg := by simpa [pure, Except.pure] using h
    exact ⟨[], .nil, rfl, .nil⟩
  | r :: rs, stack, cg, hp, hasc, hdec, h => by
    simp only [List.foldrM_cons, bind_eq_ok] at h
    obtain ⟨⟨stack₁, cg₁⟩, hrs, hr⟩ := h
    have hp' : ∀ r ∈ rs, r.Proper args := fun r hr => hp r (by simp [hr])
    have hasc' := (List.isChain_cons.1 hasc).2
    have ht := foldrM_ruleStep_spec hp' hasc' hdec.2 hrs
    obtain ⟨targets, hloop, hlen, hrep⟩ := foldrM_ruleStep_looped hp' hasc' hdec.2 hrs
    obtain ⟨⟨t, cg₂⟩, haction⟩ : ∃ out, cg₁.generateAction r = .ok out := by
      have hstep := hr
      simp only [ruleStep, bind_eq_ok] at hstep
      obtain ⟨out, haction, -⟩ := hstep
      exact ⟨out, haction⟩
    exact ⟨t :: targets, .cons hloop haction hr, by simp [hlen],
      ruleStep_represents (hp r (by simp)) ht hrep haction hr⟩

/-- The root stands for the tree of the ranges' targets. -/
theorem generateRules_grown {ranges : List SyscallRange} {root : Target}
    (hp : ∀ r ∈ ranges, r.Proper args) (hasc : ranges.IsChain (·.first < ·.first))
    (hdec : Decides load g ranges) (h : generateRules b .new ranges = .ok (root, cg)) :
    ∃ targets state tree, Looped b ranges targets state ∧ targets.length = ranges.length ∧
      Grown b cg root tree ∧
      SearchTree.ofSteps (SearchTree.coalesce (leaves ranges targets)) = some tree := by
  unfold generateRules at h
  split_ifs at h
  · simp at h
  simp only [List.foldlM_reverse, bind_eq_ok] at h
  obtain ⟨⟨stack, cg₁⟩, hloop, h⟩ := h
  have ht := foldrM_ruleStep_spec hp hasc hdec hloop
  obtain ⟨targets, hlooped, hlen, hrep⟩ := foldrM_ruleStep_looped hp hasc hdec hloop
  rcases stack with _ | ⟨top, rest⟩
  · simp at h
  simp only [] at h
  split_ifs at h
  · simp at h
  simp only [bind_eq_ok, Except.ok.injEq, Prod.mk.injEq] at h
  obtain ⟨⟨e, _⟩, hall, rfl, rfl⟩ := h
  rcases hparts : SearchTree.stack (SearchTree.coalesce (leaves ranges targets)) with _ | ⟨p, ps⟩
  · rw [hparts] at hrep
    cases hrep
  rw [hparts] at hrep
  obtain ⟨htop, hrest⟩ := List.forall₂_cons.1 hrep
  have hroot := mergeAll_represents ht.inOrder htop hrest hall
  refine ⟨targets, _, _, hlooped, hlen, hroot.grown, ?_⟩
  unfold SearchTree.ofSteps
  rw [hparts]

end Steps

/-- The range of a number: the one that has it, or the last one when it is beyond the end. -/
def RangeOf (ranges : List SyscallRange) (nr : UInt32) (i : ℕ) : Prop :=
  ∃ r, ranges[i]? = some r ∧ r.first ≤ nr ∧ (nr ≤ r.last ∨ i + 1 = ranges.length)

section Ranges

variable {rule : UInt32 → RangeAction} {ranges : List SyscallRange} {top nr : UInt32}

theorem exists_rangeOf (h : Filled rule ranges (top + 1)) (htop : top ≠ MAX_U32) (nr : UInt32) :
    ∃ i, RangeOf ranges nr i := by
  rcases ranges with _ | ⟨r, rs⟩
  · have hlast := h.last
    rw [toNat_succ htop] at hlast
    simp at hlast
  obtain ⟨r', hmem, -, hfirst, hlast⟩ := h.laid.pickRange_eq (n := nr)
    (h.start r rfl ▸ UInt32.zero_le)
  rcases hlast with ⟨hn, -⟩ | hlast
  · obtain ⟨i, hi⟩ := List.getElem?_of_mem hmem
    exact ⟨i, r', hi, hfirst, .inl hn⟩
  · rw [List.getLast?_eq_getElem?] at hlast
    exact ⟨_, r', hlast, hfirst, .inr (by simp)⟩

/-- The tree of the ranges' targets selects the target of the range of a number. -/
theorem select_of_rangeOf (h : Filled rule ranges (top + 1)) {targets : List Target}
    {tree : SearchTree UInt32 Target} (hlen : targets.length = ranges.length)
    (hof : SearchTree.ofSteps (SearchTree.coalesce (leaves ranges targets)) = some tree) {i : ℕ}
    (hi : RangeOf ranges nr i) : targets[i]? = some (tree.select nr) := by
  obtain ⟨r, hr, hfirst, hlast⟩ := hi
  obtain ⟨hlt, -⟩ := List.getElem?_eq_some_iff.1 hr
  have ht : targets[i]? = some targets[i] := List.getElem?_eq_getElem (hlen ▸ hlt)
  rw [ht, Option.some_inj]
  have hasc : (leaves ranges targets).IsChain (·.1 < ·.1) := by
    rw [← List.isChain_map (R := (· < ·)) Prod.fst, leaves, List.map_fst_zip (by simp [hlen]),
      List.isChain_map]
    exact h.laid.firsts_lt
  refine (SearchTree.select_ofSteps hasc hof (i := i) (k := r.first) ?_ hfirst ?_).symm
  · rw [leaves, List.getElem?_zip_eq_some]
    exact ⟨by simp [hr], ht⟩
  · rintro ⟨k, t⟩ hnext
    rw [Option.mem_def, leaves, List.getElem?_zip_eq_some, List.getElem?_map] at hnext
    obtain ⟨r', hr', rfl⟩ := Option.map_eq_some_iff.1 hnext.1
    obtain ⟨hlt', rfl⟩ := List.getElem?_eq_some_iff.1 hr'
    obtain ⟨_, rfl⟩ := List.getElem?_eq_some_iff.1 hr
    rcases hlast with hn | hlast
    · have hadj := List.isChain_iff_getElem.1 h.laid.chain i hlt'
      simp only [UInt32.le_iff_toNat_le, UInt32.lt_iff_toNat_lt] at hn ⊢
      omega
    · omega

end Ranges

/-- The tree the rules of a policy become selects the target of the range of every number, with no
more comparisons than the targets need that are left when neighbours with one target are made one,
and the code after the prelude enters it. -/
theorem generateRules_selects {policy : Policy} {ranges : List SyscallRange} {root : Target}
    {cg : ReverseCodegen} (hnr : ∀ e ∈ policy.entries, e.syscallNumber ≤ MAX_SYSCALL_NR)
    (hranges : normalizeRanges b policy = .ok ranges)
    (h : generateRules b .new ranges = .ok (root, cg)) :
    (∃ targets state tree, Looped b ranges targets state ∧ Grown b cg root tree ∧
      (∀ nr, (∃ i, RangeOf ranges nr i) ∧
        ∀ i, RangeOf ranges nr i → targets[i]? = some (tree.select nr)) ∧
      tree.height ≤ Nat.clog 2 (SearchTree.coalesce (leaves ranges targets)).length) ∧
    (cg.resolveTarget root).1 + 1 = (cg.resolveTarget root).2.buffer.length ∧
    ∀ load, load OFFSET_ARCH = AUDIT_ARCH_X86_64 →
      Bpf.exec (cg.resolveTarget root).2.emitArchPrelude.buffer load =
        eval load (codeAt (cg.resolveTarget root).2.buffer.length (cg.resolveTarget root).2.buffer
          (cg.resolveTarget root).1) 0 (load OFFSET_NR) := by
  have hmax : ∀ e ∈ policy.entries, e.syscallNumber ≠ MAX_U32 := fun e he hm =>
    absurd (hm ▸ hnr e he) (by decide)
  obtain ⟨_, hranges', hfilled⟩ := normalizeRanges_spec (b := b) hmax
  obtain rfl := Except.ok.inj (hranges.symm.trans hranges')
  have hproper : ∀ r ∈ ranges, r.Proper policy.argIndices := fun r hr =>
    proper_of_rule (n := r.first)
      (hfilled.laid.rule_eq r hr r.first ⟨le_rfl, hfilled.laid.nonempty r hr⟩).symm
  have hasc := hfilled.laid.firsts_lt
  let load : UInt32 → UInt32 := fun _ => 0
  have hdec :
      Decides load (fun n => ((pickRange ranges n).map (rangeVerdict load)).getD 0) ranges :=
    decides_of_pickRange hasc fun n r hr => by simp [hr]
  have hnewest := resolveTarget_newest (generateRules_spec hproper hasc hdec h).2.2.1
  obtain ⟨targets, state, tree, hloop, hlen, hgrown, hof⟩ :=
    generateRules_grown hproper hasc hdec h
  refine ⟨⟨targets, state, tree, hloop, hgrown, fun nr => ⟨?_, fun i hi => ?_⟩, ?_⟩, hnewest,
    fun load harch => ?_⟩
  · exact exists_rangeOf hfilled (topNumber_ne_max hmax) nr
  · exact select_of_rangeOf hfilled hlen hof hi
  · exact SearchTree.height_ofSteps hof
  · rw [exec_emitArchPrelude, if_pos harch, ← hnewest, Bpf.codeAt_top]

/-- Two neighbours of different actions with one return value, and a filter. -/
def stepsPolicy : Policy :=
  ⟨[⟨1, .errno 1, none⟩, ⟨2, .errno 0x10001, none⟩, ⟨4, .log, some (.boolConst true)⟩], .kill⟩

def stepsRanges : List SyscallRange := (normalizeRanges .debug stepsPolicy).toOption.getD []

def stepsRules : Target × ReverseCodegen :=
  (generateRules .debug .new stepsRanges).toOption.getD (.action 0, .new)

theorem stepsPolicy_selects :
    (∃ targets state tree, Looped .debug stepsRanges targets state ∧
      Grown .debug stepsRules.2 stepsRules.1 tree ∧
      (∀ nr, (∃ i, RangeOf stepsRanges nr i) ∧
        ∀ i, RangeOf stepsRanges nr i → targets[i]? = some (tree.select nr)) ∧
      tree.height ≤ Nat.clog 2 (SearchTree.coalesce (leaves stepsRanges targets)).length) ∧
    (stepsRules.2.resolveTarget stepsRules.1).1 + 1 =
      (stepsRules.2.resolveTarget stepsRules.1).2.buffer.length ∧
    ∀ load, load OFFSET_ARCH = AUDIT_ARCH_X86_64 →
      Bpf.exec (stepsRules.2.resolveTarget stepsRules.1).2.emitArchPrelude.buffer load =
        eval load (codeAt (stepsRules.2.resolveTarget stepsRules.1).2.buffer.length
          (stepsRules.2.resolveTarget stepsRules.1).2.buffer
          (stepsRules.2.resolveTarget stepsRules.1).1) 0 (load OFFSET_NR) :=
  @generateRules_selects .debug stepsPolicy _ _ _ (by decide) rfl rfl

end ReverseCodegen

end Pnut.Kafel
