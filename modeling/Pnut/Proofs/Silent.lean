import Pnut.Proofs.Layout
import Pnut.Proofs.Meaning

/-!
# Comparisons decided in silence

A comparison that resolution lets through is either refused by the lowering or turned into code.
Some are neither: what is left over in `generate_comparison` and `generate_masked_compare` goes to
the false exit without a test, and a small constant on the left is compared with the low word of
its argument only.
-/

namespace Pnut.Kafel

open Bpf (SockFilter SeccompData)

/-- A masked comparison, or one whose right side is no constant. -/
def Expr.OpenComparison : Expr → Prop
  | .maskedCompare .. => True
  | .compare _ _ rhs => constValue rhs = none
  | _ => False

/-- In front of every buffer the comparison is refused, or there is code that goes where the
comparison says over the whole arguments. -/
def Expr.Decides (e : Expr) : Prop :=
  ∀ (buf : ExprBuf) (t f : ℕ), t < buf.length → f < buf.length →
    (∃ error, generateExpr buf e t f = errWith error) ∨
    ∃ entry new, generateExpr buf e t f = .ok (entry, new ++ buf) ∧ new ≠ [] ∧
      ∀ (d : SeccompData) (a : UInt32), ∃ a',
        Bpf.runTo (new ++ buf) d.load new.length (new ++ buf).length
            ((new ++ buf).length - 1 - entry) a =
          some ((new ++ buf).length - 1 - (if e.holds (argOf d.args) then t else f), a')

/-- The comparisons that are refused or have code of their own. -/
def Expr.Handled : Expr → Prop
  | .maskedCompare _ (.constant mask) _ (.constant v) => mask ≤ 0xFFFFFFFF ∧ v ≤ 0xFFFFFFFF
  | .maskedCompare .. => True
  | .compare (.constant v) op (.arg _) => v > 0xFFFFFFFF ∨ v = 0 ∧ (op = .le ∨ op = .gt)
  | .compare (.constant _) _ _ => True
  | _ => False

/-! ## Comparisons with code -/

section Coded

variable {e : Expr}

/-- Code that decides what the comparison says. -/
theorem Expr.Coded.decides (he : e.Coded) (hemits : e.emits = true)
    (hholds : ∀ d : SeccompData, e.evaluates (argOf d.args) = e.holds (argOf d.args)) :
    e.Decides := by
  intro buf t f ht hf
  rcases he.lowers ht hf with ⟨-, new, hok, -⟩ | ⟨-, herr⟩
  · right
    obtain ⟨new', hnew, hlowered⟩ := generateExpr_spec e ht hf hok
    obtain rfl : new = new' := List.append_cancel_right hnew
    refine ⟨_, new, hok, ?_, fun d a => ?_⟩
    · simpa [hemits] using hlowered.emits_eq
    · rw [← hholds, ← he.decided_eq]
      exact hlowered.runTo ht hf d.load a
  · exact .inl herr

theorem twoExits_lt : 1 < twoExits.length ∧ 0 < twoExits.length := by decide

/-- Code that decides something else at some arguments. -/
theorem Expr.Coded.not_decides (he : e.Coded)
    (hfits : ∀ j ∈ (e.layout 2 1 0).jumps, j.Fits) {d : SeccompData}
    (hholds : e.evaluates (argOf d.args) ≠ e.holds (argOf d.args)) : ¬ e.Decides := by
  intro hdec
  obtain ⟨ht, hf⟩ := twoExits_lt
  rcases hdec twoExits 1 0 ht hf with ⟨er, herr⟩ | ⟨entry, new, hok, -, hrun⟩
  · rcases he.lowers ht hf with ⟨-, new, hok, -⟩ | ⟨⟨j, hj, hfar⟩, -⟩
    · simp [hok, errWith] at herr
    · exact hfar (hfits j hj)
  · obtain ⟨new', hnew, hlowered⟩ := generateExpr_spec e ht hf hok
    obtain rfl : new = new' := List.append_cancel_right hnew
    obtain ⟨a', ha⟩ := hrun d 0
    obtain ⟨a'', hb⟩ := hlowered.runTo ht hf d.load 0
    rw [he.decided_eq] at hb
    rw [ha] at hb
    simp only [Option.some.injEq, Prod.mk.injEq] at hb
    have hlen : (new ++ twoExits).length = new.length + 2 := by simp [twoExits]
    have hloc := hb.1
    rw [hlen] at hloc
    cases h₁ : e.evaluates (argOf d.args) <;> cases h₂ : e.holds (argOf d.args) <;>
      simp [h₁, h₂] at hloc hholds

/-- No code, so the comparison is taken for false. -/
theorem Expr.not_decides_of_no_code
    (h : ∀ (buf : ExprBuf) t f, generateExpr buf e t f = .ok (f, buf)) : ¬ e.Decides := by
  intro hdec
  obtain ⟨ht, hf⟩ := twoExits_lt
  rcases hdec twoExits 1 0 ht hf with ⟨er, herr⟩ | ⟨entry, new, hok, hne, -⟩
  · simp [h, errWith] at herr
  · rw [h] at hok
    simp only [Except.ok.injEq, Prod.mk.injEq] at hok
    exact hne (by simpa using hok.2)

end Coded

/-! ## A constant on the left -/

section Left

/-- The low word tells a small constant from the argument only when the test is trivial. -/
theorem evaluateCmp_low_iff {v : UInt64} (hv : v ≤ 0xFFFFFFFF) (op : CmpOp) :
    (∀ x : UInt64, evaluateCmp op v x.toUInt32.toUInt64 = evaluateCmp op v x) ↔
      v = 0 ∧ (op = .le ∨ op = .gt) := by
  have hlt : v.toNat ≤ 0xFFFFFFFF := UInt64.le_iff_toNat_le.1 hv
  constructor
  · intro h
    -- the constant with a high word, and the high word alone
    have hword := h (v + 0x100000000)
    have hhigh := h 0x100000000
    have hsum : (v + 0x100000000).toNat = v.toNat + 0x100000000 := by
      rw [UInt64.toNat_add]
      simp only [UInt64.reduceToNat]
      omega
    have hzero : v = 0 ↔ v.toNat = 0 := UInt64.toNat_inj.symm
    rw [hzero]
    cases op <;> simp [evaluateCmp_eq_toNat, hsum] at hword hhigh ⊢ <;> omega
  · rintro ⟨rfl, rfl | rfl⟩ x <;> simp [evaluateCmp_eq_toNat]

/-- An argument compared with a constant on its left. -/
theorem constArg_decides_iff {idx : UInt8} (hidx : idx < 6) (op : CmpOp) (v : UInt64) :
    (Expr.compare (.constant v) op (.arg idx)).Decides ↔
      v > 0xFFFFFFFF ∨ v = 0 ∧ (op = .le ∨ op = .gt) := by
  have hcoded : (Expr.compare (.constant v) op (.arg idx)).Coded := .constArg hidx op v
  by_cases hv : v > 0xFFFFFFFF
  · refine iff_of_true (hcoded.decides rfl fun d => ?_) (.inl hv)
    simp [Expr.evaluates, comparedArg, hv, Expr.holds, Expr.value]
  have hle : v ≤ 0xFFFFFFFF := UInt64.not_lt.1 hv
  have hvalue (args : Fin 6 → UInt64) :
      (Expr.compare (.constant v) op (.arg idx)).evaluates (argOf args) =
        evaluateCmp op v (argOf args idx).toUInt32.toUInt64 := by
    simp [Expr.evaluates, comparedArg, hv]
  rw [or_iff_right hv, ← evaluateCmp_low_iff hle op]
  constructor
  · intro hdec x
    by_contra hne
    let d : SeccompData := ⟨0, 0, 0, fun _ => x⟩
    have harg : argOf d.args idx = x := by
      rw [argOf, dif_pos (by simpa [UInt8.lt_iff_toNat_lt] using hidx)]
    refine hcoded.not_decides (d := d) ?_ ?_ hdec
    · simp only [Expr.layout, comparisonLayout, needs64bit_of_le hle]
      cases op <;> simp [cmpJump, reversedOp, Jump.Fits]
    · rw [hvalue, Expr.holds, Expr.value, Expr.value, harg]
      exact hne
  · intro hlow
    refine hcoded.decides rfl fun d => ?_
    rw [hvalue, hlow]
    rfl

end Left

/-! ## The comparisons that are handled -/

theorem masked_decides_iff {idx : UInt8} (hidx : idx < 6) (mask v : UInt64) (op : CmpOp) :
    (Expr.maskedCompare idx (.constant mask) op (.constant v)).Decides ↔
      mask ≤ 0xFFFFFFFF ∧ v ≤ 0xFFFFFFFF := by
  by_cases h : mask ≤ 0xFFFFFFFF ∧ v ≤ 0xFFFFFFFF
  · have hcoded := Expr.Coded.masked hidx h.1 op h.2
    refine iff_of_true (hcoded.decides ?_ fun d => rfl) h
    simp [Expr.emits, maskedEmits, needs64bit_of_le h.1, needs64bit_of_le h.2]
  · refine iff_of_false (Expr.not_decides_of_no_code fun buf t f => ?_) h
    rw [generateExpr, generateMaskedCompare]
    simp only [constValue]
    cases hmask : needs64bit mask with
    | true => simp
    | false =>
      cases hv : needs64bit v with
      | true =>
        have hne : v ≠ 0 := by
          rintro rfl
          exact absurd hv (by decide)
        simp [hne]
      | false =>
        refine absurd ⟨?_, ?_⟩ h
        · simpa [needs64bit] using hmask
        · simpa [needs64bit] using hv

/-- A comparison that the lowering refuses is not decided by a constant. -/
theorem Expr.decides_of_refused {e : Expr} {error : Error}
    (h : ∀ (buf : ExprBuf) t f, generateExpr buf e t f = errWith error) : e.Decides :=
  fun buf t f _ _ => .inl ⟨error, h buf t f⟩

/-- Of the comparisons that resolution lets through, those decided as they read over the whole
arguments, or refused, are the handled ones. -/
theorem comparison_decides_iff {r : Resolver} {names : List String} (hlen : names.length ≤ 6)
    {syscallName : String} {filter : Ast.BoolExpr} {e : Expr}
    (h : r.resolveBoolExpr (Resolver.argMap names) syscallName filter = .ok e)
    (hopen : e.OpenComparison) : e.Decides ↔ e.Handled := by
  have hargs : ∀ idx ∈ e.argIndices, idx < 6 := fun idx hidx =>
    argMap_lt hlen idx (resolveBoolExpr_argIndices h hidx)
  cases resolveBoolExpr_simplified hlen h with
  | boolConst _ | value hv =>
    first
    | exact hopen.elim
    | cases hv <;> exact hopen.elim
  | and _ _ _ | or _ _ _ | not _ _ => exact hopen.elim
  | compare op hl hr hconst =>
    cases hl with
    | constant v =>
      cases hr with
      | constant v' => exact absurd ⟨rfl, rfl⟩ (hconst v v')
      | arg idx => exact constArg_decides_iff (hargs idx (by simp [Expr.argIndices])) op v
      | bitOr _ => exact iff_of_true (Expr.decides_of_refused fun _ _ _ => rfl) trivial
    | arg idx =>
      cases hr with
      | constant v => exact absurd hopen (by simp [Expr.OpenComparison, constValue])
      | arg _ | bitOr _ =>
        exact iff_of_false (Expr.not_decides_of_no_code fun _ _ _ => rfl) (by simp [Expr.Handled])
  | masked idx op hm hr =>
    cases hm with
    | constant mask =>
      cases hr with
      | constant v => exact masked_decides_iff (hargs idx (by simp [Expr.argIndices])) mask v op
      | arg _ | bitOr _ => exact iff_of_true (Expr.decides_of_refused fun _ _ _ => rfl) trivial
    | arg _ | bitOr _ => exact iff_of_true (Expr.decides_of_refused fun _ _ _ => rfl) trivial

/-- Two arguments are compared. -/
def equalArgs : Ast.BoolExpr := .compare (.arg "a" ⟨0, 1⟩) .eq (.ident "b" ⟨5, 6⟩)

theorem equalArgs_not_decides :
    (⟨[], []⟩ : Resolver).resolveBoolExpr (Resolver.argMap ["a", "b"]) "kcmp" equalArgs =
        .ok (.compare (.arg 0) .eq (.arg 1)) ∧
      (Expr.compare (.arg 0) .eq (.arg 1)).OpenComparison ∧
      ¬ (Expr.compare (.arg 0) .eq (.arg 1)).Decides :=
  ⟨rfl, rfl, Expr.not_decides_of_no_code fun _ _ _ => rfl⟩

theorem equalArgs_decides_iff : (Expr.compare (.arg 0) .eq (.arg 1)).Decides ↔
    (Expr.compare (.arg 0) .eq (.arg 1)).Handled :=
  comparison_decides_iff (by decide)
    (by rfl :
      (⟨[], []⟩ : Resolver).resolveBoolExpr (Resolver.argMap ["a", "b"]) "kcmp" equalArgs = _)
    (by rfl)

end Pnut.Kafel
