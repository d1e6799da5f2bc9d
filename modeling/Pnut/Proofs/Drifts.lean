import Pnut.Proofs.Cached

/-!
# Displacements that drift

The search tree joins its subtrees by jumps. In the states in which it does, one displacement may
drift out of eight bits: that to the lower subtree, where this is as far away as a jump reaches and
the upper one needs an instruction. A policy for which no join is of this kind has the same program
in every build, and only an entry for the largest number makes the checked build panic.
-/

namespace Pnut.Kafel

namespace ReverseCodegen

/-! ## Joins -/

/-- Two neighbours on the stack that are joined, and the state in which they are. -/
structure Join where
  cg : ReverseCodegen
  top : BufEntry
  second : BufEntry

/-- They are joined by a jump, the place it would go to below is at the largest distance, and its
target above needs an instruction. -/
structure Join.Drifts (j : Join) : Prop where
  nr_ne : j.second.nr ≠ 0
  apart : j.second.action ≠ j.top.action
  atLimit : AtLimit j.cg j.top.action
  outOfReach : OutOfReach j.cg j.second.action

/-- The joins of `merge_equal_levels`. -/
inductive MergesEqual : ReverseCodegen → BufEntry → List BufEntry → Join → Prop
  | here {cg : ReverseCodegen} {top second : BufEntry} {rest : List BufEntry}
      (hlevel : second.level = top.level) : MergesEqual cg top (second :: rest) ⟨cg, top, second⟩
  | later {cg cg' : ReverseCodegen} {top second entry : BufEntry} {rest : List BufEntry} {j : Join}
      (hlevel : second.level = top.level)
      (hjoin : joinEntries .release cg top second (second.level + 1) = .ok (entry, cg'))
      (hj : MergesEqual cg' entry rest j) : MergesEqual cg top (second :: rest) j

/-- The joins of the whole stack. -/
inductive MergesAll : ReverseCodegen → BufEntry → List BufEntry → Join → Prop
  | here {cg : ReverseCodegen} {top second : BufEntry} {rest : List BufEntry} :
      MergesAll cg top (second :: rest) ⟨cg, top, second⟩
  | later {cg cg' : ReverseCodegen} {top second entry : BufEntry} {rest : List BufEntry} {j : Join}
      (hjoin : joinEntries .release cg top second second.level = .ok (entry, cg'))
      (hj : MergesAll cg' entry rest j) : MergesAll cg top (second :: rest) j

/-- The joins of one range of the loop. -/
inductive RoundJoins : List BufEntry × ReverseCodegen → SyscallRange → Join → Prop
  | merge {cg cg' : ReverseCodegen} {top : BufEntry} {rest : List BufEntry} {range : SyscallRange}
      {action : Target} {j : Join} (hgen : cg.generateAction range = .ok (action, cg'))
      (hne : top.action ≠ action) (hj : MergesEqual cg' top rest j) :
      RoundJoins (top :: rest, cg) range j

/-- The joins of the loop, which takes the last range first. -/
inductive LoopJoins : List SyscallRange → Join → Prop
  | here {range : SyscallRange} {ranges : List SyscallRange}
      {state : List BufEntry × ReverseCodegen} {j : Join}
      (hloop : ranges.reverse.foldlM (ruleStep .release) ([], .new) = .ok state)
      (hj : RoundJoins state range j) : LoopJoins (range :: ranges) j
  | before {range : SyscallRange} {ranges : List SyscallRange} {j : Join}
      (hj : LoopJoins ranges j) : LoopJoins (range :: ranges) j

/-- The joins of `generate_rules`: those of the loop, and those of the stack that it leaves. -/
inductive TreeJoins (ranges : List SyscallRange) (j : Join) : Prop
  | loop (hj : LoopJoins ranges j)
  | root {top : BufEntry} {rest : List BufEntry} {cg : ReverseCodegen}
      (hloop : ranges.reverse.foldlM (ruleStep .release) ([], .new) = .ok (top :: rest, cg))
      (hnr : top.nr = 0) (hj : MergesAll cg top rest j)

end ReverseCodegen

/-- No jump between subtrees has a false displacement that drifts out of eight bits. -/
def Policy.JumpsFit (policy : Policy) : Prop :=
  ∀ ranges, normalizeRanges .release policy = .ok ranges →
    ∀ j, ReverseCodegen.TreeJoins ranges j → ¬ j.Drifts

/-! ## The panics of the tree -/

namespace ReverseCodegen

section Panics

variable {cg : ReverseCodegen} {top second : BufEntry} {rest : List BufEntry}

theorem joinEntries_panics_iff (h : Consistent cg) (htop : Valid cg top.action)
    (hsecond : Valid cg second.action) (level : ℕ) :
    Panics (joinEntries .debug cg top second level) ↔ Join.Drifts ⟨cg, top, second⟩ := by
  have hjump : Panics (joinEntries .debug cg top second level) ↔
      Panics (addJumpGe .debug cg second.nr second.action top.action) := by
    unfold joinEntries
    rw [panics_bind]
    exact or_iff_left fun ⟨_, _, hp⟩ => not_panics_ok hp
  rw [hjump, addJumpGe]
  split_ifs with hnr
  · exact iff_of_false not_panics_ok fun hd => hd.nr_ne hnr
  by_cases hne : second.action = top.action
  · rw [addJump, if_pos hne]
    exact iff_of_false not_panics_ok fun hd => hd.apart hne
  · rw [addJump_panics_iff h.sites hsecond htop hne]
    exact ⟨fun hd => ⟨hnr, hne, hd.1, hd.2⟩, fun hd => ⟨hd.atLimit, hd.outOfReach⟩⟩

/-- A step that does not panic is the same in both builds. -/
theorem joinEntries_release {level : ℕ} (h : ¬ Panics (joinEntries .debug cg top second level)) :
    joinEntries .release cg top second level = joinEntries .debug cg top second level :=
  (agrees_joinEntries .release cg top second level).eq h

theorem mergeEqualLevels_panics_iff : ∀ {rest : List BufEntry} {top : BufEntry}
    {cg : ReverseCodegen}, Consistent cg → (∀ e ∈ top :: rest, Valid cg e.action) →
    (Panics (mergeEqualLevels .debug cg top rest) ↔ ∃ j, MergesEqual cg top rest j ∧ j.Drifts)
  | [], _, _, _, _ => iff_of_false not_panics_ok (by rintro ⟨_, ⟨⟩, _⟩)
  | second :: rest, top, cg, h, hv => by
    unfold mergeEqualLevels
    split_ifs with hlevel
    swap
    · refine iff_of_false not_panics_ok ?_
      rintro ⟨_, ⟨hlevel'⟩ | ⟨hlevel', _, _⟩, -⟩ <;> exact hlevel hlevel'
    have hdrifts := joinEntries_panics_iff h (hv top (by simp)) (hv second (by simp))
      (second.level + 1)
    by_cases hp : Panics (joinEntries .debug cg top second (second.level + 1))
    · exact iff_of_true (panics_bind.2 (.inl hp)) ⟨_, .here hlevel, hdrifts.1 hp⟩
    have heq := joinEntries_release hp
    have hnext : ∀ {entry cg'}, joinEntries .debug cg top second (second.level + 1) =
        .ok (entry, cg') → (Panics (mergeEqualLevels .debug cg' entry rest) ↔
          ∃ j, MergesEqual cg' entry rest j ∧ j.Drifts) := fun hjoin => by
      obtain ⟨hled, hentry⟩ := led_joinEntries h (hv top (by simp)) (hv second (by simp)) hjoin
      exact mergeEqualLevels_panics_iff hled.consistent (List.forall_mem_cons.2
        ⟨hentry, fun e he => hled.ext.valid (hv e (by simp [he]))⟩)
    rw [panics_bind, or_iff_right hp]
    constructor
    · rintro ⟨⟨entry, cg'⟩, hjoin, hrest⟩
      obtain ⟨j, hj, hd⟩ := (hnext hjoin).1 hrest
      exact ⟨j, .later hlevel (heq.trans hjoin) hj, hd⟩
    · rintro ⟨_, ⟨-⟩ | ⟨-, hjoin, hj⟩, hd⟩
      · exact absurd (hdrifts.2 hd) hp
      · have hjoin' := heq.symm.trans hjoin
        exact ⟨_, hjoin', (hnext hjoin').2 ⟨_, hj, hd⟩⟩

theorem mergeAll_panics_iff : ∀ {rest : List BufEntry} {top : BufEntry} {cg : ReverseCodegen},
    Consistent cg → (∀ e ∈ top :: rest, Valid cg e.action) →
    (Panics (mergeAll .debug cg top rest) ↔ ∃ j, MergesAll cg top rest j ∧ j.Drifts)
  | [], _, _, _, _ => iff_of_false not_panics_ok (by rintro ⟨_, ⟨⟩, _⟩)
  | second :: rest, top, cg, h, hv => by
    unfold mergeAll
    have hdrifts := joinEntries_panics_iff h (hv top (by simp)) (hv second (by simp)) second.level
    by_cases hp : Panics (joinEntries .debug cg top second second.level)
    · exact iff_of_true (panics_bind.2 (.inl hp)) ⟨_, .here, hdrifts.1 hp⟩
    have heq := joinEntries_release hp
    have hnext : ∀ {entry cg'}, joinEntries .debug cg top second second.level =
        .ok (entry, cg') → (Panics (mergeAll .debug cg' entry rest) ↔
          ∃ j, MergesAll cg' entry rest j ∧ j.Drifts) := fun hjoin => by
      obtain ⟨hled, hentry⟩ := led_joinEntries h (hv top (by simp)) (hv second (by simp)) hjoin
      exact mergeAll_panics_iff hled.consistent (List.forall_mem_cons.2
        ⟨hentry, fun e he => hled.ext.valid (hv e (by simp [he]))⟩)
    rw [panics_bind, or_iff_right hp]
    constructor
    · rintro ⟨⟨entry, cg'⟩, hjoin, hrest⟩
      obtain ⟨j, hj, hd⟩ := (hnext hjoin).1 hrest
      exact ⟨j, .later (heq.trans hjoin) hj, hd⟩
    · rintro ⟨_, ⟨⟩ | ⟨hjoin, hj⟩, hd⟩
      · exact absurd (hdrifts.2 hd) hp
      · have hjoin' := heq.symm.trans hjoin
        exact ⟨_, hjoin', (hnext hjoin').2 ⟨_, hj, hd⟩⟩

theorem not_panics {α : Type} {x : Result α} (h : PanicsOnly (fun _ => False) x) : ¬ Panics x :=
  fun ⟨m, hm⟩ => h.imp m hm

theorem ruleStep_panics_iff {stack : List BufEntry} {range : SyscallRange} (h : Consistent cg)
    (hv : ∀ e ∈ stack, Valid cg e.action)
    (hadj : ∀ nr ∈ stack.head?.map BufEntry.nr, range.last.toNat + 1 = nr.toNat) :
    Panics (ruleStep .debug (stack, cg) range) ↔
      ∃ j, RoundJoins (stack, cg) range j ∧ j.Drifts := by
  unfold ruleStep
  rw [panics_bind, or_iff_right (not_panics (panicsOnly_generateAction cg range))]
  rcases stack with _ | ⟨top, rest⟩
  · refine iff_of_false ?_ (by rintro ⟨_, ⟨⟩, _⟩)
    rintro ⟨_, _, hp⟩
    exact not_panics_ok hp
  have hmerge : ∀ {action cg'}, cg.generateAction range = .ok (action, cg') →
      (Panics (mergeEqualLevels .debug cg' top rest) ↔
        ∃ j, MergesEqual cg' top rest j ∧ j.Drifts) := fun hgen => by
    have hled := (led_generateAction h hgen).1
    exact mergeEqualLevels_panics_iff hled.consistent fun e he => hled.ext.valid (hv e he)
  constructor
  · rintro ⟨⟨action, cg'⟩, hgen, hp⟩
    simp only at hp
    split_ifs at hp with heq
    · rw [panics_bind] at hp
      rcases hp with hp | ⟨_, -, hp⟩
      · exact absurd hp (not_panics (panicsOnly_assertAdjacent .debug (hadj top.nr rfl)))
      · exact absurd hp not_panics_ok
    · rw [panics_bind, or_iff_left fun ⟨_, _, hp⟩ => not_panics_ok hp, hmerge hgen] at hp
      obtain ⟨j, hj, hd⟩ := hp
      exact ⟨j, .merge hgen heq hj, hd⟩
  · rintro ⟨j, ⟨hgen, hne, hj⟩, hd⟩
    refine ⟨_, hgen, ?_⟩
    simp only [if_neg hne]
    exact panics_bind.2 (.inl ((hmerge hgen).2 ⟨j, hj, hd⟩))

/-- As long as nothing has drifted the loop is the same in both builds. -/
theorem loop_release {ranges : List SyscallRange}
    (h : ¬ Panics (ranges.reverse.foldlM (ruleStep .debug) ([], .new))) :
    ranges.reverse.foldlM (ruleStep .release) ([], .new) =
      ranges.reverse.foldlM (ruleStep .debug) ([], .new) :=
  (Agrees.foldlM (agrees_ruleStep .release) _ _).eq h

theorem loop_cons (b : Build) (range : SyscallRange) (ranges : List SyscallRange) :
    (range :: ranges).reverse.foldlM (ruleStep b) ([], .new) =
      (ranges.reverse.foldlM (ruleStep b) ([], .new) >>= fun state => ruleStep b state range) := by
  simp [List.foldlM_reverse]

/-- What the loop leaves is in order for the next range. -/
theorem loop_spec {ranges : List SyscallRange} {stack : List BufEntry}
    (h : ranges.reverse.foldlM (ruleStep .debug) ([], .new) = .ok (stack, cg)) :
    Consistent cg ∧ (∀ e ∈ stack, Valid cg e.action) ∧
      stack.head?.map BufEntry.nr = ranges.head?.map SyscallRange.first := by
  have hled := led_ruleSteps consistent_new (List.foldlM_reverse.symm.trans h)
  refine ⟨hled.1.consistent, hled.2, ?_⟩
  rcases ranges with _ | ⟨range, ranges⟩
  · obtain ⟨rfl, -⟩ := Prod.mk.inj (Except.ok.inj h)
    rfl
  · rw [loop_cons, bind_eq_ok] at h
    obtain ⟨⟨stack', cg'⟩, -, hstep⟩ := h
    exact ruleStep_head .debug hstep

theorem loop_panics_iff : ∀ {ranges : List SyscallRange},
    ranges.IsChain (fun r r' => r.last.toNat + 1 = r'.first.toNat) →
    (Panics (ranges.reverse.foldlM (ruleStep .debug) ([], .new)) ↔
      ∃ j, LoopJoins ranges j ∧ j.Drifts)
  | [], _ => iff_of_false not_panics_ok (by rintro ⟨_, ⟨⟩, _⟩)
  | range :: ranges, h => by
    have ih := loop_panics_iff (List.isChain_cons.1 h).2
    rw [loop_cons]
    by_cases hp : Panics (ranges.reverse.foldlM (ruleStep .debug) ([], .new))
    · obtain ⟨j, hj, hd⟩ := ih.1 hp
      exact iff_of_true (panics_bind.2 (.inl hp)) ⟨j, .before hj, hd⟩
    have heq := loop_release hp
    have hround : ∀ {state}, ranges.reverse.foldlM (ruleStep .debug) ([], .new) = .ok state →
        (Panics (ruleStep .debug state range) ↔ ∃ j, RoundJoins state range j ∧ j.Drifts) := by
      rintro ⟨stack, cg⟩ hloop
      obtain ⟨hcons, hv, hhead⟩ := loop_spec hloop
      refine ruleStep_panics_iff hcons hv fun nr hnr => ?_
      rw [hhead, Option.mem_map] at hnr
      obtain ⟨next, hnext, rfl⟩ := hnr
      exact (List.isChain_cons.1 h).1 next hnext
    rw [panics_bind, or_iff_right hp]
    constructor
    · rintro ⟨state, hloop, hstep⟩
      obtain ⟨j, hj, hd⟩ := (hround hloop).1 hstep
      exact ⟨j, .here (heq.trans hloop) hj, hd⟩
    · rintro ⟨j, ⟨hloop, hj⟩ | hj, hd⟩
      · have hloop' := heq.symm.trans hloop
        exact ⟨_, hloop', (hround hloop').2 ⟨j, hj, hd⟩⟩
      · exact absurd (ih.2 ⟨j, hj, hd⟩) hp

theorem generateRules_panics_iff {ranges : List SyscallRange}
    (h : ranges.IsChain (fun r r' => r.last.toNat + 1 = r'.first.toNat)) :
    Panics (generateRules .debug .new ranges) ↔ ∃ j, TreeJoins ranges j ∧ j.Drifts := by
  have hloop := loop_panics_iff h
  unfold generateRules
  split_ifs with hnil
  · obtain rfl := List.isEmpty_iff.1 hnil
    refine iff_of_false not_panics_errWith ?_
    rintro ⟨j, ⟨⟨⟩⟩ | ⟨hok, -, -⟩, -⟩
    cases hok
  rw [panics_bind]
  by_cases hp : Panics (ranges.reverse.foldlM (ruleStep .debug) ([], .new))
  · obtain ⟨j, hj, hd⟩ := hloop.1 hp
    exact iff_of_true (.inl hp) ⟨j, .loop hj, hd⟩
  have heq := loop_release hp
  rw [or_iff_right hp]
  have hroot : ∀ {top rest cg}, ranges.reverse.foldlM (ruleStep .debug) ([], .new) =
      .ok (top :: rest, cg) → (Panics (mergeAll .debug cg top rest) ↔
        ∃ j, MergesAll cg top rest j ∧ j.Drifts) := fun hok => by
    obtain ⟨hcons, hv, -⟩ := loop_spec hok
    exact mergeAll_panics_iff hcons hv
  constructor
  · rintro ⟨⟨_ | ⟨top, rest⟩, cg⟩, hok, hp⟩
    · exact absurd hp not_panics_errWith
    simp only at hp
    split_ifs at hp with hnr
    · exact absurd hp not_panics_errWith
    rw [panics_bind, or_iff_left fun ⟨_, _, hp⟩ => not_panics_ok hp, hroot hok] at hp
    obtain ⟨j, hj, hd⟩ := hp
    exact ⟨j, .root (heq.trans hok) (not_not.1 hnr) hj, hd⟩
  · rintro ⟨j, hj | ⟨hok, hnr, hj⟩, hd⟩
    · exact absurd (hloop.2 ⟨j, hj, hd⟩) hp
    · have hok' := heq.symm.trans hok
      refine ⟨_, hok', ?_⟩
      simp only [if_neg (not_not.2 hnr)]
      exact panics_bind.2 (.inl ((hroot hok').2 ⟨j, hj, hd⟩))

end Panics

end ReverseCodegen

/-! ## The panics of the generator -/

/-- The two ways a policy can make the checked build panic. -/
theorem codegen_panics_iff (policy : Policy) : Panics (policy.codegen .debug) ↔
    (∃ e ∈ policy.entries, e.syscallNumber = MAX_U32) ∨ ¬ policy.JumpsFit := by
  by_cases hmax : ∃ e ∈ policy.entries, e.syscallNumber = MAX_U32
  · obtain ⟨m, hm⟩ := normalizeRanges_panics (b := .debug) rfl hmax
    refine iff_of_true ⟨m, ?_⟩ (.inl hmax)
    rw [Policy.codegen, ReverseCodegen.generate, hm]
    rfl
  · have hne : ∀ e ∈ policy.entries, e.syscallNumber ≠ MAX_U32 := by simpa using hmax
    obtain ⟨ranges, hranges, hfilled⟩ := normalizeRanges_spec (b := .debug) hne
    have hrelease : normalizeRanges .release policy = .ok ranges :=
      ((agrees_normalizeRanges .release policy).eq (hranges ▸ not_panics_ok)).trans hranges
    have hfit : policy.JumpsFit ↔ ¬ ∃ j, ReverseCodegen.TreeJoins ranges j ∧ j.Drifts := by
      simp [Policy.JumpsFit, hrelease]
    rw [or_iff_right hmax, hfit, not_not,
      ← ReverseCodegen.generateRules_panics_iff hfilled.laid.chain, Policy.codegen,
      ReverseCodegen.generate, hranges]
    -- nothing behind the tree can panic
    simp only [ok_bind, panics_bind]
    constructor
    · rintro ((hp | ⟨⟨root, cg⟩, -, hp⟩) | ⟨_, -, hp⟩)
      · exact hp
      · simp only at hp
        split_ifs at hp
        · exact absurd hp not_panics_errWith
        · exact absurd hp not_panics_ok
      · exact absurd hp not_panics_ok
    · exact fun hp => .inl (.inl hp)

/-- A policy that does not make the checked build panic has one program in every build. -/
theorem codegen_eq_debug {policy : Policy} {b : Build} {prog : List Bpf.SockFilter}
    (hmax : ∀ e ∈ policy.entries, e.syscallNumber ≠ MAX_U32) (hfit : policy.JumpsFit)
    (h : policy.codegen b = .ok prog) : policy.codegen .debug = .ok prog := by
  have hp : ¬ Panics (policy.codegen .debug) := by
    rw [codegen_panics_iff]
    rintro (⟨e, he, hnr⟩ | hdrift)
    · exact hmax e he hnr
    · exact hdrift hfit
  rw [← (ReverseCodegen.agrees_codegen b policy).eq hp, h]

theorem Policy.JumpsFit.of_ok {policy : Policy} {prog : List Bpf.SockFilter}
    (h : policy.codegen .debug = .ok prog) : policy.JumpsFit := by
  by_contra hfit
  have hp : Panics (policy.codegen .debug) := (codegen_panics_iff policy).2 (.inr hfit)
  exact hp.not_ok ⟨prog, h⟩

end Pnut.Kafel
