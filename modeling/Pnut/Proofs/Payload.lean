import Pnut.Proofs.Accepted
import Pnut.Proofs.Meaning

/-!
# The values of actions

`ERRNO`, `TRAP` and `TRACE` carry a value. It is cut to 32 bits when it is resolved, part by part,
and to 16 when it becomes a return value: it is carried exactly when it fits the 16.
-/

namespace Pnut.Kafel

open Libc Resolver

/-- The actions that carry a value. -/
inductive Carrier where
  | errno | trap | trace
  deriving DecidableEq

namespace Carrier

def declare : Carrier → Ast.Expr → Ast.Action
  | .errno => .errno
  | .trap => .trap
  | .trace => .trace

def action : Carrier → UInt32 → Action
  | .errno => .errno
  | .trap => .trap
  | .trace => .trace

/-- The class of the return value. -/
def code : Carrier → UInt32
  | .errno => SECCOMP_RET_ERRNO
  | .trap => SECCOMP_RET_TRAP
  | .trace => SECCOMP_RET_TRACE

end Carrier

/-- The value an action declares, if its names are defined; no argument is in scope. -/
def Ast.Expr.declared (defines : Table) (e : Ast.Expr) : Option UInt64 :=
  e.value defines [] fun _ => 0

/-- A declaration is refused, or its return value has the class of the action and the declared value
as its data. -/
def CarriedExactly (r : Resolver) (c : Carrier) (e : Ast.Expr) : Prop :=
  ∀ action, r.resolveAction (c.declare e) = .ok action →
    actionToRet action &&& 0xFFFF0000 = c.code ∧
      e.declared r.defines = some (actionToRet action &&& 0xFFFF).toUInt64

/-- Two declarations of different values do not share a return value. -/
def KeptApart (r : Resolver) (c c' : Carrier) (e e' : Ast.Expr) : Prop :=
  ∀ action action', r.resolveAction (c.declare e) = .ok action →
    r.resolveAction (c'.declare e') = .ok action' →
    e.declared r.defines ≠ e'.declared r.defines → actionToRet action ≠ actionToRet action'

section Value

variable (r : Resolver)

theorem toUInt32_or (x y : UInt64) : (x ||| y).toUInt32 = x.toUInt32 ||| y.toUInt32 := by
  apply UInt32.toNat_inj.1
  rw [UInt32.toNat_or, UInt64.toNat_toUInt32, UInt64.toNat_toUInt32, UInt64.toNat_toUInt32,
    UInt64.toNat_or, Nat.or_mod_two_pow]

theorem toUInt32_toUInt64 (w : UInt64) : w.toUInt32.toUInt64.toUInt32 = w.toUInt32 := by
  apply UInt32.toNat_inj.1
  rw [UInt64.toNat_toUInt32, UInt32.toNat_toUInt64, Nat.mod_eq_of_lt w.toUInt32.toNat_lt]

mutual

/-- What is resolved is the declared value cut to 32 bits. -/
theorem resolveActionValue_eq_ok : ∀ (e : Ast.Expr) (v : UInt32),
    r.resolveActionValue e = .ok v ↔
      ∃ w, e.declared r.defines = some w ∧ v = w.toUInt32
  | .number n, v => by
    simp [resolveActionValue, Ast.Expr.declared, Ast.Expr.value, pure, Except.pure, eq_comm]
  | .ident name span, v => by
    have harg : argValue [] (fun _ => 0) name = none := rfl
    unfold resolveActionValue Ast.Expr.declared Ast.Expr.value
    rw [harg, Option.or_none]
    cases r.defines.lookup name with
    | none => simp
    | some val => simp [pure, Except.pure, eq_comm]
  | .bitOr parts, v => by
    unfold resolveActionValue Ast.Expr.declared Ast.Expr.value
    rw [bind_eq_ok]
    constructor
    · rintro ⟨w, hw, hv⟩
      obtain rfl := Except.ok.inj hv
      obtain ⟨w', hw', heq⟩ := (resolveActionParts_eq_ok parts 0 w).1 hw
      refine ⟨w', hw', ?_⟩
      rw [heq, UInt64.zero_or, toUInt32_toUInt64]
    · rintro ⟨w, hw, rfl⟩
      refine ⟨_, (resolveActionParts_eq_ok parts 0 _).2 ⟨w, hw, rfl⟩, ?_⟩
      rw [UInt64.zero_or, toUInt32_toUInt64]
      rfl

theorem resolveActionParts_eq_ok : ∀ (parts : List Ast.Expr) (result w : UInt64),
    r.resolveActionParts result parts = .ok w ↔
      ∃ w', Ast.Expr.values r.defines [] (fun _ => 0) parts = some w' ∧
        w = result ||| w'.toUInt32.toUInt64
  | [], result, w => by
    simp [resolveActionParts, Ast.Expr.values, pure, Except.pure, eq_comm]
  | part :: parts, result, w => by
    unfold resolveActionParts Ast.Expr.values
    rw [bind_eq_ok]
    constructor
    · rintro ⟨v, hv, hw⟩
      obtain ⟨x, hx, rfl⟩ := (resolveActionValue_eq_ok part v).1 hv
      obtain ⟨y, hy, rfl⟩ := (resolveActionParts_eq_ok parts _ w).1 hw
      unfold Ast.Expr.declared at hx
      refine ⟨x ||| y, by rw [hx, hy]; rfl, ?_⟩
      rw [toUInt32_or, UInt32.toUInt64_or, UInt64.or_assoc]
    · rintro ⟨w', hw', rfl⟩
      cases hx : part.value r.defines [] fun _ => 0 with
      | none => rw [hx] at hw'; cases hw'
      | some x =>
        cases hy : Ast.Expr.values r.defines [] (fun _ => 0) parts with
        | none => rw [hx, hy] at hw'; cases hw'
        | some y =>
          rw [hx, hy] at hw'
          obtain rfl : x ||| y = w' := Option.some.inj hw'
          refine ⟨x.toUInt32, (resolveActionValue_eq_ok part _).2 ⟨x, hx, rfl⟩,
            (resolveActionParts_eq_ok parts _ _).2 ⟨y, hy, ?_⟩⟩
          rw [toUInt32_or, UInt32.toUInt64_or, UInt64.or_assoc]

end

theorem resolveAction_eq_ok {c : Carrier} {e : Ast.Expr} {action : Action} :
    r.resolveAction (c.declare e) = .ok action ↔
      ∃ w, e.declared r.defines = some w ∧ action = c.action w.toUInt32 := by
  have hbind : r.resolveAction (c.declare e) =
      (r.resolveActionValue e >>= fun v => pure (c.action v)) := by
    rcases c with _ | _ | _ <;> rfl
  rw [hbind, bind_eq_ok]
  constructor
  · rintro ⟨v, hv, haction⟩
    obtain rfl := Except.ok.inj haction
    obtain ⟨w, hw, rfl⟩ := (resolveActionValue_eq_ok r e v).1 hv
    exact ⟨w, hw, rfl⟩
  · rintro ⟨w, hw, rfl⟩
    exact ⟨_, (resolveActionValue_eq_ok r e _).2 ⟨w, hw, rfl⟩, rfl⟩

end Value

/-! ## Return values -/

section Ret

theorem Carrier.ret_eq (c : Carrier) (v : UInt32) :
    actionToRet (c.action v) = c.code ||| v &&& 0xFFFF := by
  rcases c with _ | _ | _ <;> rfl

theorem Carrier.ret_class (c : Carrier) (v : UInt32) :
    actionToRet (c.action v) &&& 0xFFFF0000 = c.code := by
  rw [c.ret_eq, or_and_distrib, UInt32.and_assoc,
    show (0xFFFF : UInt32) &&& 0xFFFF0000 = 0 by decide, UInt32.and_zero, UInt32.or_zero]
  rcases c with _ | _ | _ <;> decide

theorem Carrier.ret_data (c : Carrier) (v : UInt32) :
    actionToRet (c.action v) &&& 0xFFFF = v &&& 0xFFFF := by
  have hcode : c.code &&& 0xFFFF = 0 := by rcases c with _ | _ | _ <;> decide
  rw [c.ret_eq, or_and_distrib, hcode, UInt32.zero_or, UInt32.and_assoc, UInt32.and_self]

theorem Carrier.code_injective {c c' : Carrier} (h : c.code = c'.code) : c = c' := by
  revert h
  rcases c with _ | _ | _ <;> rcases c' with _ | _ | _ <;> decide

/-- The data of a return value, which is the low 16 bits of what was declared. -/
theorem data_toNat (w : UInt64) : (w.toUInt32 &&& 0xFFFF).toNat = w.toNat % 65536 := by
  rw [UInt32.toNat_and, UInt64.toNat_toUInt32, show (0xFFFF : UInt32).toNat = 2 ^ 16 - 1 by decide,
    Nat.and_two_pow_sub_one_eq_mod]
  omega

theorem ret_eq_iff {c c' : Carrier} {w w' : UInt64} :
    actionToRet (c.action w.toUInt32) = actionToRet (c'.action w'.toUInt32) ↔
      c = c' ∧ w.toNat % 65536 = w'.toNat % 65536 := by
  constructor
  · intro h
    refine ⟨Carrier.code_injective ?_, ?_⟩
    · rw [← c.ret_class w.toUInt32, h, c'.ret_class]
    · rw [← data_toNat, ← data_toNat, ← c.ret_data, h, c'.ret_data]
  · rintro ⟨rfl, h⟩
    rw [c.ret_eq, c.ret_eq]
    congr 1
    apply UInt32.toNat_inj.1
    rw [data_toNat, data_toNat, h]

end Ret

section Exact

variable {r : Resolver} {c c' : Carrier} {e e' : Ast.Expr}

theorem carriedExactly_iff :
    CarriedExactly r c e ↔ ∀ w, e.declared r.defines = some w → w.toNat < 65536 := by
  constructor
  · intro h w hw
    obtain ⟨-, hdata⟩ := h _ ((resolveAction_eq_ok r).2 ⟨w, hw, rfl⟩)
    rw [hw, Option.some.injEq, c.ret_data] at hdata
    have hnat := congrArg UInt64.toNat hdata
    rw [UInt32.toNat_toUInt64, data_toNat] at hnat
    omega
  · rintro h action haction
    obtain ⟨w, hw, rfl⟩ := (resolveAction_eq_ok r).1 haction
    refine ⟨c.ret_class _, ?_⟩
    rw [hw, c.ret_data, Option.some.injEq]
    apply UInt64.toNat_inj.1
    rw [UInt32.toNat_toUInt64, data_toNat, Nat.mod_eq_of_lt (h w hw)]

theorem keptApart_iff : KeptApart r c c' e e' ↔
    ∀ w w', e.declared r.defines = some w → e'.declared r.defines = some w' → c = c' → w ≠ w' →
      w.toNat % 65536 ≠ w'.toNat % 65536 := by
  constructor
  · intro h w w' hw hw' hc hne hmod
    refine h _ _ ((resolveAction_eq_ok r).2 ⟨w, hw, rfl⟩) ((resolveAction_eq_ok r).2 ⟨w', hw', rfl⟩)
      ?_ (ret_eq_iff.2 ⟨hc, hmod⟩)
    rw [hw, hw']
    exact fun heq => hne (Option.some.inj heq)
  · intro h action action' haction haction' hne heq
    obtain ⟨w, hw, rfl⟩ := (resolveAction_eq_ok r).1 haction
    obtain ⟨w', hw', rfl⟩ := (resolveAction_eq_ok r).1 haction'
    obtain ⟨hc, hmod⟩ := ret_eq_iff.1 heq
    exact h w w' hw hw' hc (fun h => hne (by rw [hw, hw', h])) hmod

end Exact

/-- A value is carried exactly when it fits 16 bits, and two values of one action are kept apart
when their low 16 bits differ. -/
theorem resolveAction_exact_iff (r : Resolver) (c c' : Carrier) (e e' : Ast.Expr) :
    (CarriedExactly r c e ↔ ∀ w, e.declared r.defines = some w → w.toNat < 65536) ∧
      (KeptApart r c c' e e' ↔
        ∀ w w', e.declared r.defines = some w → e'.declared r.defines = some w' → c = c' → w ≠ w' →
          w.toNat % 65536 ≠ w'.toNat % 65536) :=
  ⟨carriedExactly_iff, keptApart_iff⟩

def errnoText : List Char := "POLICY p { ERRNO(65536) { read } } USE p DEFAULT KILL".toList

/-- The policy is accepted, and its program returns errno 0. -/
theorem errnoText_not_exact :
    (compile .debug (Pest.interpreter silentError) errnoText).toOption.map
        (fun prog => Bpf.exec prog (Bpf.SeccompData.load ⟨0, AUDIT_ARCH_X86_64, 0, fun _ => 0⟩)) =
      some (some SECCOMP_RET_ERRNO) ∧
    ∀ r, ¬ CarriedExactly r .errno (.number 65536) := by
  refine ⟨by decide +kernel, fun r h => ?_⟩
  exact absurd (carriedExactly_iff.1 h 65536 rfl) (by decide)

end Pnut.Kafel
