import Pnut.Proofs.Faithful
import Pnut.Proofs.Resolved

/-!
# What a source filter says

A filter of the policy text is read over the six arguments with two orders of lookup: the left side
of a comparison is an argument before it is a define, a name in a value a define before it is an
argument. Resolution keeps this reading, and what it gives has nothing left to fold
(`resolveBoolExpr_holds`).
-/

namespace Pnut.Kafel

open Resolver

/-! ## The source filter -/

section Source

variable (defines : Table) (names : List String) (args : Fin 6 → UInt64)

/-- The place of a name among the names, the last one if it is there twice. -/
def lastIdx (name : String) : List String → Option ℕ
  | [] => none
  | n :: ns => ((lastIdx name ns).map (· + 1)).or (if name = n then some 0 else none)

/-- The argument declared under a name; of two with the same name the later counts. -/
def argValue (name : String) : Option UInt64 :=
  (lastIdx name names).bind fun i => if h : i < 6 then some (args ⟨i, h⟩) else none

mutual

/-- A value; a name is a define first and an argument second. -/
def Ast.Expr.value : Ast.Expr → Option UInt64
  | .number n => some n
  | .ident name _ => (defines.lookup name).or (argValue names args name)
  | .bitOr parts => Ast.Expr.values parts

def Ast.Expr.values : List Ast.Expr → Option UInt64
  | [] => some 0
  | part :: parts => do
    let x ← part.value
    let y ← Ast.Expr.values parts
    some (x ||| y)

end

/-- The left side of a comparison; a name is an argument first and a define second. -/
def Ast.CmpLhs.value : Ast.CmpLhs → Option UInt64
  | .arg name _ => (argValue names args name).or (defines.lookup name)
  | .masked name _ mask => do
    let x ← argValue names args name
    let m ← mask.value defines names args
    some (x &&& m)

/-- The truth of a filter, `none` when it has a name that means nothing. -/
def Ast.BoolExpr.holds : Ast.BoolExpr → Option Bool
  | .compare lhs op rhs => do
    let x ← lhs.value defines names args
    let y ← rhs.value defines names args
    some (evaluateCmp op x y)
  | .and a b => do
    let x ← a.holds
    let y ← b.holds
    some (x && y)
  | .or a b => do
    let x ← a.holds
    let y ← b.holds
    some (x || y)
  | .not inner => inner.holds.map (!·)
  | .literal value => some value

end Source

/-! ## The names of the arguments -/

section Names

variable {names : List String}

theorem lastIdx_lt {name : String} : ∀ {names : List String} {i : ℕ},
    lastIdx name names = some i → i < names.length
  | n :: ns, i, h => by
    rw [lastIdx, Option.or_eq_some_iff, Option.map_eq_some_iff] at h
    rw [List.length_cons]
    rcases h with ⟨j, hj, rfl⟩ | ⟨-, h⟩
    · have := lastIdx_lt hj
      omega
    · split_ifs at h
      obtain rfl := Option.some.inj h
      omega

theorem zipIdx_lookup (name : String) : ∀ (names : List String) (k : ℕ),
    ((names.zipIdx k).map fun (name, i) => (name, UInt8.ofNat i)).reverse.lookup name =
      (lastIdx name names).map fun i => UInt8.ofNat (k + i)
  | [], _ => rfl
  | n :: ns, k => by
    rw [List.zipIdx_cons, List.map_cons, List.reverse_cons, List.lookup_append,
      zipIdx_lookup name ns (k + 1), lookup_cons_ite, lastIdx]
    have hsucc (i : ℕ) : k + 1 + i = k + (i + 1) := by omega
    rcases lastIdx name ns with _ | i
    · split_ifs <;> rfl
    · simp [hsucc]

theorem argMap_lookup (name : String) :
    (argMap names).lookup name = (lastIdx name names).map UInt8.ofNat := by
  rw [argMap, zipIdx_lookup]
  simp

/-- The argument of an index is the one declared under the name. -/
theorem argValue_eq (hlen : names.length ≤ 6) (args : Fin 6 → UInt64) (name : String) :
    argValue names args name = ((argMap names).lookup name).map (argOf args) := by
  rw [argMap_lookup, argValue]
  cases hi : lastIdx name names with
  | none => rfl
  | some i =>
    have hi6 : i < 6 := (lastIdx_lt hi).trans_le hlen
    have hnat : (UInt8.ofNat i).toNat = i := by
      rw [UInt8.toNat_ofNat']
      omega
    simp [argOf, hnat, hi6]

end Names

/-! ## Values -/

section Values

variable {r : Resolver} {names : List String} {args : Fin 6 → UInt64}

theorem constants_values : ∀ {es : List Expr} {v : UInt64}, constants es = some v →
    Expr.value.values (argOf args) es = v
  | [], v, h => by
    simp only [constants, Option.some.injEq] at h
    rw [Expr.value.values, h]
  | .constant n :: es, v, h => by
    simp only [constants, Option.map_eq_some_iff] at h
    obtain ⟨v', hv, rfl⟩ := h
    rw [Expr.value.values, constants_values hv, Expr.value]

/-- Values: constants, arguments, and what is joined of them. -/
inductive Expr.IsValue : Expr → Prop where
  | constant (v : UInt64) : IsValue (.constant v)
  | arg (idx : UInt8) : IsValue (.arg idx)
  | bitOr {parts : List Expr} (h : ∀ part ∈ parts, IsValue part) : IsValue (.bitOr parts)

/-- What a name on the left of a comparison is. -/
inductive Expr.IsName : Expr → Prop where
  | constant (v : UInt64) : IsName (.constant v)
  | arg (idx : UInt8) : IsName (.arg idx)

mutual

theorem resolveExpr_value (hlen : names.length ≤ 6) :
    ∀ {e : Ast.Expr} {e' : Expr},
    r.resolveExpr (argMap names) e = .ok e' →
    e'.IsValue ∧ e.value r.defines names args = some (e'.value (argOf args))
  | .number n, e', h => by
    obtain rfl : Expr.constant n = e' := by simpa [resolveExpr, pure, Except.pure] using h
    exact ⟨.constant n, rfl⟩
  | .ident name span, e', h => by
    unfold resolveExpr at h
    cases hd : r.defines.lookup name with
    | some val =>
      obtain rfl : Expr.constant val = e' := by simpa [hd, pure, Except.pure] using h
      exact ⟨.constant val, by simp [Ast.Expr.value, hd, Expr.value]⟩
    | none =>
      cases ha : (argMap names).lookup name with
      | some idx =>
        obtain rfl : Expr.arg idx = e' := by simpa [hd, ha, pure, Except.pure] using h
        refine ⟨.arg idx, ?_⟩
        simp [Ast.Expr.value, hd, argValue_eq hlen, ha, Expr.value]
      | none => simp [hd, ha] at h
  | .bitOr parts, e', h => by
    simp only [resolveExpr, bind_eq_ok] at h
    obtain ⟨es, hes, h⟩ := h
    obtain ⟨hvalues, heq⟩ := resolveExprs_value hlen hes
    rw [Ast.Expr.value, heq]
    cases hc : constants es with
    | some val =>
      obtain rfl : Expr.constant val = e' := by simpa [hc, pure, Except.pure] using h
      exact ⟨.constant val, by rw [constants_values hc, Expr.value]⟩
    | none =>
      obtain rfl : Expr.bitOr es = e' := by simpa [hc, pure, Except.pure] using h
      exact ⟨.bitOr hvalues, by rw [Expr.value]⟩

theorem resolveExprs_value (hlen : names.length ≤ 6) :
    ∀ {es : List Ast.Expr} {es' : List Expr},
    r.resolveExprs (argMap names) es = .ok es' →
    (∀ e' ∈ es', e'.IsValue) ∧
      Ast.Expr.values r.defines names args es = some (Expr.value.values (argOf args) es')
  | [], es', h => by
    obtain rfl : [] = es' := by simpa [resolveExprs, pure, Except.pure] using h
    exact ⟨by simp, rfl⟩
  | e :: es, es', h => by
    simp only [resolveExprs, bind_eq_ok, pure, Except.pure, Except.ok.injEq] at h
    obtain ⟨e', he, es'', hes, rfl⟩ := h
    obtain ⟨hvalue, heq⟩ := resolveExpr_value hlen he
    obtain ⟨hvalues, heqs⟩ := resolveExprs_value hlen hes
    refine ⟨?_, ?_⟩
    · simp only [List.mem_cons, forall_eq_or_imp]
      exact ⟨hvalue, hvalues⟩
    · rw [Ast.Expr.values, heq, heqs, Expr.value.values]
      rfl

end

end Values

/-! ## Normal form -/

/-- Nothing is left to fold: no comparison of two constants, and no connective with a constant
operand. -/
inductive Expr.Simplified : Expr → Prop where
  | boolConst (b : Bool) : Simplified (.boolConst b)
  | value {e : Expr} (h : e.IsValue) : Simplified e
  | compare {lhs rhs : Expr} (op : CmpOp) (hl : lhs.IsName) (hr : rhs.IsValue)
      (hconst : ∀ a b, ¬ (lhs = .constant a ∧ rhs = .constant b)) :
      Simplified (.compare lhs op rhs)
  | masked {mask rhs : Expr} (idx : UInt8) (op : CmpOp) (hm : mask.IsValue) (hr : rhs.IsValue) :
      Simplified (.maskedCompare idx mask op rhs)
  | and {left right : Expr} (hl : Simplified left) (hr : Simplified right)
      (hconst : ∀ b, left ≠ .boolConst b ∧ right ≠ .boolConst b) : Simplified (.and left right)
  | or {left right : Expr} (hl : Simplified left) (hr : Simplified right)
      (hconst : ∀ b, left ≠ .boolConst b ∧ right ≠ .boolConst b) : Simplified (.or left right)
  | not {inner : Expr} (h : Simplified inner) (hconst : ∀ b, inner ≠ .boolConst b) :
      Simplified (.not inner)

section Simplify

variable (args : UInt8 → UInt64) {a b : Expr}

theorem simplifyCompare_holds {lhs rhs : Expr} (op : CmpOp) (hl : lhs.IsName) (hr : rhs.IsValue) :
    (simplifyCompare lhs op rhs).Simplified ∧ (simplifyCompare lhs op rhs).holds args =
      evaluateCmp op (lhs.value args) (rhs.value args) := by
  unfold simplifyCompare
  split
  · exact ⟨.boolConst _, rfl⟩
  · rename_i hconst
    exact ⟨.compare op hl hr fun a b h => hconst a b h.1 h.2, rfl⟩

theorem simplifyAnd_holds (ha : a.Simplified) (hb : b.Simplified) :
    (simplifyAnd a b).Simplified ∧
      (simplifyAnd a b).holds args = (a.holds args && b.holds args) := by
  unfold simplifyAnd
  split
  · exact ⟨hb, by simp [Expr.holds]⟩
  · exact ⟨ha, by simp [Expr.holds]⟩
  · exact ⟨.boolConst _, by simp [Expr.holds]⟩
  · exact ⟨.boolConst _, by simp [Expr.holds]⟩
  · rename_i hat haf hbt hbf
    refine ⟨.and ha hb fun c => ?_, rfl⟩
    cases c
    · exact ⟨haf, hbf⟩
    · exact ⟨hat, hbt⟩

theorem simplifyOr_holds (ha : a.Simplified) (hb : b.Simplified) :
    (simplifyOr a b).Simplified ∧
      (simplifyOr a b).holds args = (a.holds args || b.holds args) := by
  unfold simplifyOr
  split
  · exact ⟨hb, by simp [Expr.holds]⟩
  · exact ⟨ha, by simp [Expr.holds]⟩
  · exact ⟨.boolConst _, by simp [Expr.holds]⟩
  · exact ⟨.boolConst _, by simp [Expr.holds]⟩
  · rename_i haf hat hbf hbt
    refine ⟨.or ha hb fun c => ?_, rfl⟩
    cases c
    · exact ⟨haf, hbf⟩
    · exact ⟨hat, hbt⟩

theorem simplifyNot_holds (ha : a.Simplified) :
    (simplifyNot a).Simplified ∧ (simplifyNot a).holds args = !a.holds args := by
  unfold simplifyNot
  split
  · exact ⟨.boolConst _, rfl⟩
  · cases ha with
    | value h => cases h
    | not h hconst => exact ⟨h, by simp [Expr.holds]⟩
  · rename_i hconst hnot
    exact ⟨.not ha hconst, rfl⟩

end Simplify

/-! ## Filters -/

theorem resolveBoolExpr_simplified {r : Resolver} {names : List String} (hlen : names.length ≤ 6)
    {syscallName : String} : ∀ {filter : Ast.BoolExpr} {e : Expr},
    r.resolveBoolExpr (argMap names) syscallName filter = .ok e → e.Simplified
  | .compare lhs op rhs, e, h => by
    simp only [resolveBoolExpr, bind_eq_ok] at h
    obtain ⟨rhs', hrhs, h⟩ := h
    have hr := (@resolveExpr_value r names (fun _ => 0) hlen _ _ hrhs).1
    have finish {lhs' : Expr} (hl : lhs'.IsName) (he : simplifyCompare lhs' op rhs' = e) :
        e.Simplified := he ▸ (simplifyCompare_holds 0 op hl hr).1
    cases lhs with
    | arg name span =>
      simp only at h
      cases ha : (argMap names).lookup name with
      | some idx => exact finish (.arg idx) (by simpa [ha, pure, Except.pure] using h)
      | none =>
        cases hd : r.defines.lookup name with
        | some val => exact finish (.constant val) (by simpa [ha, hd, pure, Except.pure] using h)
        | none => simp [ha, hd] at h
    | masked name span mask =>
      simp only at h
      cases ha : (argMap names).lookup name with
      | none => simp [ha] at h
      | some idx =>
        simp only [ha, bind_eq_ok, pure, Except.pure, Except.ok.injEq] at h
        obtain ⟨mask', hmask, rfl⟩ := h
        exact .masked idx op (@resolveExpr_value r names (fun _ => 0) hlen _ _ hmask).1 hr
  | .and a b, e, h => by
    simp only [resolveBoolExpr, bind_eq_ok, pure, Except.pure, Except.ok.injEq] at h
    obtain ⟨ra, hra, rb, hrb, rfl⟩ := h
    exact (simplifyAnd_holds 0 (resolveBoolExpr_simplified hlen hra)
      (resolveBoolExpr_simplified hlen hrb)).1
  | .or a b, e, h => by
    simp only [resolveBoolExpr, bind_eq_ok, pure, Except.pure, Except.ok.injEq] at h
    obtain ⟨ra, hra, rb, hrb, rfl⟩ := h
    exact (simplifyOr_holds 0 (resolveBoolExpr_simplified hlen hra)
      (resolveBoolExpr_simplified hlen hrb)).1
  | .not inner, e, h => by
    simp only [resolveBoolExpr, bind_eq_ok, pure, Except.pure, Except.ok.injEq] at h
    obtain ⟨ri, hri, rfl⟩ := h
    exact (simplifyNot_holds 0 (resolveBoolExpr_simplified hlen hri)).1
  | .literal val, e, h => by
    obtain rfl : Expr.boolConst val = e := by simpa [resolveBoolExpr, pure, Except.pure] using h
    exact .boolConst val

theorem resolveBoolExpr_truth {r : Resolver} {names : List String} (hlen : names.length ≤ 6)
    {syscallName : String} (args : Fin 6 → UInt64) :
    ∀ {filter : Ast.BoolExpr} {e : Expr},
    r.resolveBoolExpr (argMap names) syscallName filter = .ok e →
    filter.holds r.defines names args = some (e.holds (argOf args))
  | .compare lhs op rhs, e, h => by
    simp only [resolveBoolExpr, bind_eq_ok] at h
    obtain ⟨rhs', hrhs, h⟩ := h
    have hr := @resolveExpr_value r names args hlen _ _ hrhs
    have finish {lhs' : Expr} (hl : lhs'.IsName) (he : simplifyCompare lhs' op rhs' = e)
        (hlhs : lhs.value r.defines names args = some (lhs'.value (argOf args))) :
        (Ast.BoolExpr.compare lhs op rhs).holds r.defines names args =
          some (e.holds (argOf args)) := by
      subst he
      rw [Ast.BoolExpr.holds, hlhs, hr.2, (simplifyCompare_holds (argOf args) op hl hr.1).2]
      rfl
    cases lhs with
    | arg name span =>
      simp only at h
      cases ha : (argMap names).lookup name with
      | some idx =>
        refine finish (.arg idx) (by simpa [ha, pure, Except.pure] using h) ?_
        simp [Ast.CmpLhs.value, argValue_eq hlen, ha, Expr.value]
      | none =>
        cases hd : r.defines.lookup name with
        | some val =>
          refine finish (.constant val) (by simpa [ha, hd, pure, Except.pure] using h) ?_
          simp [Ast.CmpLhs.value, argValue_eq hlen, ha, hd, Expr.value]
        | none => simp [ha, hd] at h
    | masked name span mask =>
      simp only at h
      cases ha : (argMap names).lookup name with
      | none => simp [ha] at h
      | some idx =>
        simp only [ha, bind_eq_ok, pure, Except.pure, Except.ok.injEq] at h
        obtain ⟨mask', hmask, rfl⟩ := h
        have hm := @resolveExpr_value r names args hlen _ _ hmask
        rw [Ast.BoolExpr.holds, Ast.CmpLhs.value, argValue_eq hlen, ha, hm.2, hr.2]
        rfl
  | .and a b, e, h => by
    simp only [resolveBoolExpr, bind_eq_ok, pure, Except.pure, Except.ok.injEq] at h
    obtain ⟨ra, hra, rb, hrb, rfl⟩ := h
    rw [Ast.BoolExpr.holds, resolveBoolExpr_truth hlen args hra,
      resolveBoolExpr_truth hlen args hrb,
      (simplifyAnd_holds _ (resolveBoolExpr_simplified hlen hra)
        (resolveBoolExpr_simplified hlen hrb)).2]
    rfl
  | .or a b, e, h => by
    simp only [resolveBoolExpr, bind_eq_ok, pure, Except.pure, Except.ok.injEq] at h
    obtain ⟨ra, hra, rb, hrb, rfl⟩ := h
    rw [Ast.BoolExpr.holds, resolveBoolExpr_truth hlen args hra,
      resolveBoolExpr_truth hlen args hrb,
      (simplifyOr_holds _ (resolveBoolExpr_simplified hlen hra)
        (resolveBoolExpr_simplified hlen hrb)).2]
    rfl
  | .not inner, e, h => by
    simp only [resolveBoolExpr, bind_eq_ok, pure, Except.pure, Except.ok.injEq] at h
    obtain ⟨ri, hri, rfl⟩ := h
    rw [Ast.BoolExpr.holds, resolveBoolExpr_truth hlen args hri,
      (simplifyNot_holds _ (resolveBoolExpr_simplified hlen hri)).2]
    rfl
  | .literal val, e, h => by
    obtain rfl : Expr.boolConst val = e := by simpa [resolveBoolExpr, pure, Except.pure] using h
    rfl

/-- What resolution gives has the truth of the source filter and nothing left to fold. -/
theorem resolveBoolExpr_holds {r : Resolver} {names : List String} (hlen : names.length ≤ 6)
    {syscallName : String} : ∀ {filter : Ast.BoolExpr} {e : Expr},
    r.resolveBoolExpr (argMap names) syscallName filter = .ok e →
    e.Simplified ∧ ∀ args : Fin 6 → UInt64,
      filter.holds r.defines names args = some (e.holds (argOf args)) := by
  intro filter e h
  exact ⟨resolveBoolExpr_simplified hlen h,
    fun args => resolveBoolExpr_truth hlen args h⟩

/-- `A` is a define and an argument: on the left the argument counts, in a value the define. -/
def shadowedResolver : Resolver := ⟨[("A", 5)], []⟩

def shadowedFilter : Ast.BoolExpr :=
  .and (.compare (.arg "A" ⟨0, 1⟩) .eq (.bitOr [.ident "A" ⟨5, 6⟩, .number 2])) (.literal true)

theorem shadowedFilter_holds :
    (Expr.compare (.arg 1) .eq (.constant 7)).Simplified ∧ ∀ args : Fin 6 → UInt64,
      shadowedFilter.holds shadowedResolver.defines ["fd", "A"] args =
        some ((Expr.compare (.arg 1) .eq (.constant 7)).holds (argOf args)) :=
  resolveBoolExpr_holds (by decide)
    (by rfl : shadowedResolver.resolveBoolExpr (argMap ["fd", "A"]) "ioctl" shadowedFilter = _)

end Pnut.Kafel
