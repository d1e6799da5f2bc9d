import Pnut.Proofs.Normalize
import Pnut.Proofs.Tree

/-!
# Builds

What a build without checks computes is what the checked build computes, unless that one panics.
Neither the code of a filter nor the check that two ranges are adjacent makes it panic.
-/

namespace Pnut.Kafel

/-! ## Agreement -/

section Agreement

variable {α β : Type}

/-- `y` is what `x` is, as long as `x` does not panic. -/
structure Agrees (x y : Result α) : Prop where
  eq : ¬ Panics x → y = x

@[refl] theorem Agrees.refl (x : Result α) : Agrees x x := ⟨fun _ => rfl⟩

theorem Agrees.bind {x y : Result α} {f g : α → Result β} (h : Agrees x y)
    (hfg : ∀ a, Agrees (f a) (g a)) : Agrees (x >>= f) (y >>= g) := by
  refine ⟨fun hp => ?_⟩
  rcases x with ⟨e⟩ | a
  · rcases e with e | m
    · rw [h.eq (by simp [Panics])]
      rfl
    · exact absurd ⟨m, rfl⟩ hp
  · rw [h.eq (by simp [Panics])]
    exact (hfg a).eq hp

theorem Agrees.foldlM {f g : β → α → Result β} (h : ∀ s a, Agrees (f s a) (g s a)) :
    ∀ (l : List α) (s : β), Agrees (l.foldlM f s) (l.foldlM g s)
  | [], _ => .refl _
  | a :: l, s => by
    rw [List.foldlM_cons, List.foldlM_cons]
    exact (h s a).bind fun s' => Agrees.foldlM h l s'

theorem Agrees.ite {c : Prop} [Decidable c] {x y x' y' : Result α} (h : Agrees x y)
    (h' : Agrees x' y') : Agrees (if c then x else x') (if c then y else y') := by
  split_ifs
  · exact h
  · exact h'

/-- A check that stops the checked build with a panic, and that another build may leave out. -/
theorem Agrees.assert {x y : Result α} (h : Agrees x y) (on c : Bool) (message : String) :
    Agrees (if (true && c) = true then panicWith message else x)
      (if (on && c) = true then panicWith message else y) := by
  refine ⟨fun hp => ?_⟩
  cases c
  · simpa using h.eq (by simpa using hp)
  · exact absurd ⟨message, by simp [panicWith]⟩ hp

end Agreement

section Builds

variable (b : Build)

theorem agrees_addU32 (x y : UInt32) : Agrees (addU32 .debug x y) (addU32 b x y) :=
  (Agrees.refl (.ok (x + y))).assert ..

theorem agrees_pushRange (ranges : List SyscallRange) (range : SyscallRange) :
    Agrees (pushRange .debug ranges range) (pushRange b ranges range) := by
  unfold pushRange
  cases ranges.getLast? with
  | none => exact .refl _
  | some last => exact (agrees_addU32 b _ _).bind fun _ => .refl _

theorem agrees_fillStep (d : Action) (state : List SyscallRange × UInt32) (range : SyscallRange) :
    Agrees (fillStep .debug d state range) (fillStep b d state range) := by
  have after (filled : List SyscallRange) := (agrees_addU32 b range.last 1).bind fun next =>
    (agrees_pushRange b filled range).bind fun filled => .refl (.ok (filled, next))
  exact .ite ((agrees_pushRange b ..).bind after) (after _)

theorem agrees_normalizeRanges (policy : Policy) :
    Agrees (normalizeRanges .debug policy) (normalizeRanges b policy) := by
  unfold normalizeRanges
  refine .ite (.refl _) (.bind (.foldlM (agrees_pushRange b) _ _) fun merged => ?_)
  unfold fillGaps
  exact .ite (.refl _) (.bind (.foldlM (agrees_fillStep b _) _ _) fun state =>
    .ite (agrees_pushRange b _ _) (.refl _))

namespace ReverseCodegen

theorem agrees_addJump (cg : ReverseCodegen) (bpfType : UInt16) (k : UInt32) (t f : Target) :
    Agrees (addJump .debug cg bpfType k t f) (addJump b cg bpfType k t f) :=
  .ite (.refl _) (.assert (.assert (.refl _) ..) ..)

theorem agrees_joinEntries (cg : ReverseCodegen) (top second : BufEntry) (level : ℕ) :
    Agrees (joinEntries .debug cg top second level) (joinEntries b cg top second level) := by
  refine Agrees.bind ?_ fun _ => .refl _
  exact .ite (.refl _) (agrees_addJump b ..)

theorem agrees_mergeEqualLevels : ∀ (rest : List BufEntry) (cg : ReverseCodegen) (top : BufEntry),
    Agrees (mergeEqualLevels .debug cg top rest) (mergeEqualLevels b cg top rest)
  | [], _, _ => .refl _
  | second :: rest, cg, top => by
    rw [mergeEqualLevels, mergeEqualLevels]
    exact .ite ((agrees_joinEntries b ..).bind fun _ => agrees_mergeEqualLevels rest _ _) (.refl _)

theorem agrees_mergeAll : ∀ (rest : List BufEntry) (cg : ReverseCodegen) (top : BufEntry),
    Agrees (mergeAll .debug cg top rest) (mergeAll b cg top rest)
  | [], _, _ => .refl _
  | _ :: rest, _, _ => (agrees_joinEntries b ..).bind fun _ => agrees_mergeAll rest _ _

theorem assertAdjacent_ok_or (range : SyscallRange) (top : BufEntry) :
    assertAdjacent b range top = .ok () ∨ Panics (assertAdjacent b range top) := by
  unfold assertAdjacent addU32
  split_ifs
  · exact .inr ⟨_, rfl⟩
  · simp only [bind, Except.bind]
    split_ifs
    · exact .inl rfl
    · exact .inr ⟨_, rfl⟩
  · exact .inl rfl

theorem agrees_assertAdjacent (range : SyscallRange) (top : BufEntry) :
    Agrees (assertAdjacent .debug range top) (assertAdjacent b range top) := by
  cases hb : b.debugAssertions
  · refine ⟨fun hp => ?_⟩
    rw [(assertAdjacent_ok_or .debug range top).resolve_right hp, assertAdjacent, hb]
    rfl
  · rw [assertAdjacent, assertAdjacent, hb]
    exact (agrees_addU32 b _ _).bind fun _ => .refl _

theorem agrees_ruleStep (state : List BufEntry × ReverseCodegen) (range : SyscallRange) :
    Agrees (ruleStep .debug state range) (ruleStep b state range) := by
  refine Agrees.bind (.refl _) fun ⟨action, cg⟩ => ?_
  cases state.1 with
  | nil => exact .refl _
  | cons top rest =>
    exact .ite ((agrees_assertAdjacent b ..).bind fun _ => .refl _)
      ((agrees_mergeEqualLevels b ..).bind fun _ => .refl _)

theorem agrees_generateRules (cg : ReverseCodegen) (ranges : List SyscallRange) :
    Agrees (generateRules .debug cg ranges) (generateRules b cg ranges) := by
  refine .ite (.refl _) (Agrees.bind (.foldlM (agrees_ruleStep b) _ _) fun ⟨buf, cg⟩ => ?_)
  cases buf with
  | nil => exact .refl _
  | cons top rest => exact .ite (.refl _) ((agrees_mergeAll b ..).bind fun _ => .refl _)

theorem agrees_codegen (policy : Policy) : Agrees (policy.codegen .debug) (policy.codegen b) :=
  Agrees.bind ((agrees_normalizeRanges b policy).bind fun _ =>
    (agrees_generateRules b ..).bind fun _ => .refl _) fun _ => .refl _

end ReverseCodegen

end Builds

/-! ## The panics of the checked build -/

section Lowering

variable {P : String → Prop}

theorem panicsOnly_emitJump (buf : ExprBuf) (code : UInt16) (k : UInt32) (t f : ℕ) :
    PanicsOnly P (buf.emitJump code k t f) := by
  have offset (loc l : ℕ) : PanicsOnly P (ExprBuf.jumpOffset loc l) :=
    .ite (panicsOnly_errWith _) (.ite (panicsOnly_errWith _) (panicsOnly_ok _))
  exact (offset _ _).bind fun _ _ => (offset _ _).bind fun _ _ => panicsOnly_ok _

theorem panicsOnly_generateArgComparison (buf : ExprBuf) (idx : UInt8) (op : CmpOp) (rhs : Expr)
    (t f : ℕ) : PanicsOnly P (generateArgComparison buf idx op rhs t f) := by
  have cmp32 (code val t f) : PanicsOnly P (generateCmp32Const buf code idx val t f) :=
    (panicsOnly_emitJump ..).bind fun _ _ => panicsOnly_ok _
  have eq64 (hi lo t f) : PanicsOnly P (generateEquality64 buf idx hi lo t f) :=
    (panicsOnly_emitJump ..).bind fun _ _ => (panicsOnly_emitJump ..).bind fun _ _ =>
      panicsOnly_ok _
  have ineq64 (code hi lo t f) : PanicsOnly P (generateInequality64 buf code idx hi lo t f) :=
    (panicsOnly_emitJump ..).bind fun _ _ => (panicsOnly_emitJump ..).bind fun _ _ =>
      (panicsOnly_emitJump ..).bind fun _ _ => panicsOnly_ok _
  unfold generateArgComparison
  cases constValue rhs with
  | none => exact panicsOnly_ok _
  | some v =>
    refine .ite (cmp32 ..) ?_
    cases op with
    | eq | ne => exact eq64 ..
    | lt | le | gt | ge => exact ineq64 ..

theorem panicsOnly_generateComparison (buf : ExprBuf) (lhs : Expr) (op : CmpOp) (rhs : Expr)
    (t f : ℕ) : PanicsOnly P (generateComparison buf lhs op rhs t f) := by
  unfold generateComparison
  split
  · exact panicsOnly_ok _
  · split
    · exact panicsOnly_generateArgComparison ..
    · split
      · exact panicsOnly_generateArgComparison ..
      · exact panicsOnly_errWith _
    · exact panicsOnly_ok _

theorem panicsOnly_generateMaskedCompare (buf : ExprBuf) (idx : UInt8) (mask : Expr) (op : CmpOp)
    (rhs : Expr) (t f : ℕ) : PanicsOnly P (generateMaskedCompare buf idx mask op rhs t f) := by
  unfold generateMaskedCompare
  split
  · exact panicsOnly_errWith _
  · split
    · exact panicsOnly_errWith _
    · split_ifs
      · exact (panicsOnly_emitJump ..).bind fun _ _ => panicsOnly_ok _
      · exact (panicsOnly_emitJump ..).bind fun _ _ => panicsOnly_ok _
      · exact (panicsOnly_emitJump ..).bind fun _ _ => panicsOnly_ok _
      · exact panicsOnly_ok _

theorem panicsOnly_generateExpr : ∀ (e : Expr) (buf : ExprBuf) (t f : ℕ),
    PanicsOnly P (generateExpr buf e t f)
  | .boolConst true, _, _, _ | .boolConst false, _, _, _ => panicsOnly_ok _
  | .constant _, _, _, _ | .arg _, _, _, _ | .bitOr _, _, _, _ => panicsOnly_ok _
  | .compare .., _, _, _ => panicsOnly_generateComparison ..
  | .maskedCompare .., _, _, _ => panicsOnly_generateMaskedCompare ..
  | .not inner, _, _, _ => panicsOnly_generateExpr inner ..
  | .and left right, _, _, _ | .or left right, _, _, _ =>
    (panicsOnly_generateExpr right ..).bind fun _ _ => panicsOnly_generateExpr left ..

end Lowering

namespace ReverseCodegen

/-- After the last call the true target is near. -/
theorem ensureJumpableTarget_near (cg : ReverseCodegen) (t : Target) :
    (cg.ensureJumpableTarget t).2.locToJump (cg.ensureJumpableTarget t).1 ≤ MAX_JUMP := by
  unfold ensureJumpableTarget
  simp only []
  split_ifs with h
  · simp [locToJump, currentLoc, addInstruction]
  · exact not_lt.1 h

section Tree

variable (b : Build)

theorem panicsOnly_generateAction {P : String → Prop} (cg : ReverseCodegen)
    (range : SyscallRange) : PanicsOnly P (cg.generateAction range) := by
  unfold generateAction
  cases range.action with
  | unconditional action => exact panicsOnly_ok _
  | conditional ms fallback =>
    refine PanicsOnly.bind (PanicsOnly.bind (.foldlM (fun state m => ?_) _ _) fun _ _ =>
      panicsOnly_ok _) fun _ _ => panicsOnly_ok _
    exact ((panicsOnly_generateExpr ..).bind fun _ _ => panicsOnly_ok _).bind fun _ _ =>
      panicsOnly_ok _

/-- After a round the top starts where its range does. -/
theorem ruleStep_head {stack stack' : List BufEntry} {cg cg' : ReverseCodegen}
    {range : SyscallRange} (h : ruleStep b (stack, cg) range = .ok (stack', cg')) :
    stack'.head?.map BufEntry.nr = some range.first := by
  simp only [ruleStep, bind_eq_ok] at h
  obtain ⟨⟨t, cg₁⟩, -, h⟩ := h
  cases stack with
  | nil =>
    simp only [Except.ok.injEq, Prod.mk.injEq] at h
    obtain ⟨rfl, -⟩ := h
    rfl
  | cons top rest =>
    simp only [] at h
    split_ifs at h <;> simp only [bind_eq_ok, Except.ok.injEq, Prod.mk.injEq] at h
    · obtain ⟨-, -, rfl, -⟩ := h
      rfl
    · obtain ⟨-, -, rfl, -⟩ := h
      rfl

theorem panicsOnly_assertAdjacent {P : String → Prop} {range : SyscallRange} {top : BufEntry}
    (h : range.last.toNat + 1 = top.nr.toNat) : PanicsOnly P (assertAdjacent b range top) := by
  have hmax : range.last ≠ MAX_U32 := by
    rintro he
    have := top.nr.toNat_lt
    simp only [he, MAX_U32, UInt32.reduceToNat] at h
    omega
  have hnext : range.last + 1 = top.nr := UInt32.toNat_inj.1 ((toNat_succ hmax).trans h)
  refine .ite ?_ (panicsOnly_ok _)
  rw [addU32_one hmax, hnext]
  refine (panicsOnly_ok top.nr).bind fun next he => ?_
  obtain rfl : top.nr = next := by simpa using he
  rw [if_pos rfl]
  exact panicsOnly_ok _

end Tree

end ReverseCodegen

end Pnut.Kafel
