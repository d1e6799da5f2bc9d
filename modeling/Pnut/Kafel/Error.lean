import Mathlib.Tactic

/-!
# Errors

`Error` is the compiler's error type. A run that panics, or stops at an overflow check or a debug
assertion, ends in `Fault.panic`: the two ways out of a function are kept apart.
-/

namespace Pnut

/-- The compiler flags of a Rust build that decide what a program does: whether arithmetic
overflow panics or wraps, and whether `debug_assert!` is compiled in. -/
structure Build where
  overflowChecks : Bool
  debugAssertions : Bool
  deriving DecidableEq

def Build.release : Build := ⟨false, false⟩
def Build.debug : Build := ⟨true, true⟩

namespace Kafel

/-- A byte range of the policy text. -/
structure Span where
  start : UInt32
  stop : UInt32
  deriving DecidableEq, Repr, Inhabited

inductive Error where
  | parse (message : String) (span : Option Span)
  | unknownSyscall (name : String) (span : Option Span)
  | undefinedIdentifier (name : String) (span : Option Span)
  | undeclaredArgument (name syscall : String) (span : Option Span)
  | circularUse (policy : String) (span : Option Span)
  | undefinedPolicy (name : String) (span : Option Span)
  | codegen (message : String) (span : Option Span)
  | includeNotFound (filename : String) (span : Option Span)
  | includeDepthExceeded
  | circularInclude (filename : String) (span : Option Span)
  deriving DecidableEq, Repr

inductive Fault where
  | error (e : Error)
  | panic (message : String)
  deriving DecidableEq, Repr

/-- A Rust `Result<α, Error>`, or a panic. -/
abbrev Result := Except Fault

def errWith {α : Type*} (e : Error) : Result α := .error (.error e)
def panicWith {α : Type*} (message : String) : Result α := .error (.panic message)

/-- Neither the result nor an error: the run panicked. -/
def Panics {α : Type*} (r : Result α) : Prop := ∃ message, r = .error (.panic message)

instance {α : Type*} (r : Result α) : Decidable (Panics r) :=
  match r with
  | .error (.panic message) => .isTrue ⟨message, rfl⟩
  | .error (.error _) => .isFalse fun ⟨_, h⟩ => by cases h
  | .ok _ => .isFalse fun ⟨_, h⟩ => by cases h

theorem Panics.not_ok {α : Type*} {r : Result α} (h : Panics r) : ¬ ∃ a, r = .ok a := by
  obtain ⟨message, rfl⟩ := h
  simp

theorem not_panics_ok {α : Type*} {a : α} : ¬ Panics (.ok a : Result α) :=
  fun ⟨_, h⟩ => by cases h

theorem not_panics_errWith {α : Type*} {e : Error} : ¬ Panics (errWith e : Result α) :=
  fun ⟨_, h⟩ => by cases h

theorem panics_bind {α β : Type} {x : Result α} {f : α → Result β} :
    Panics (x >>= f) ↔ Panics x ∨ ∃ a, x = .ok a ∧ Panics (f a) := by
  cases x <;> simp [bind, Except.bind, Panics]

@[simp] theorem bind_eq_ok {α β : Type} {x : Result α} {f : α → Result β} {r : β} :
    (x >>= f) = .ok r ↔ ∃ a, x = .ok a ∧ f a = .ok r := by
  cases x <;> simp [bind, Except.bind]

@[simp] theorem ok_bind {α β : Type} {a : α} {f : α → Result β} :
    ((Except.ok a : Result α) >>= f) = f a := rfl

@[simp] theorem errWith_ne_ok {α : Type*} {e : Error} {r : α} : errWith e ≠ .ok r := by
  simp [errWith]

@[simp] theorem panicWith_ne_ok {α : Type*} {message : String} {r : α} :
    panicWith message ≠ .ok r := by
  simp [panicWith]

theorem mem_of_mapM {α β : Type} {f : α → Result β} : ∀ {l : List α} {r : List β},
    l.mapM f = .ok r → ∀ y ∈ r, ∃ x ∈ l, f x = .ok y
  | [], r, h, y, hy => by
    obtain rfl : r = [] := by simpa [pure, Except.pure, eq_comm] using h
    simp at hy
  | a :: l, r, h, y, hy => by
    simp only [List.mapM_cons, bind_eq_ok, pure, Except.pure, Except.ok.injEq] at h
    obtain ⟨z, hz, zs, hzs, rfl⟩ := h
    rcases List.mem_cons.1 hy with rfl | hy
    · exact ⟨a, by simp, hz⟩
    · obtain ⟨x, hx, hfx⟩ := mem_of_mapM hzs y hy
      exact ⟨x, by simp [hx], hfx⟩

section PanicsOnly

variable {α β : Type} {P : String → Prop}

variable (P) in
/-- The run panics with such a message only. -/
structure PanicsOnly (r : Result α) : Prop where
  imp : ∀ m, r = .error (.panic m) → P m

theorem panicsOnly_ok (a : α) : PanicsOnly P (.ok a : Result α) := ⟨by simp⟩

theorem panicsOnly_errWith (e : Error) : PanicsOnly P (errWith e : Result α) :=
  ⟨by simp [errWith]⟩

theorem PanicsOnly.bind {x : Result α} {f : α → Result β} (h : PanicsOnly P x)
    (hf : ∀ a, x = .ok a → PanicsOnly P (f a)) : PanicsOnly P (x >>= f) := by
  refine ⟨fun m hm => ?_⟩
  rcases x with e | a
  · exact h.imp m (by cases hm; rfl)
  · exact (hf a rfl).imp m hm

theorem PanicsOnly.ite {c : Prop} [Decidable c] {x y : Result α} (h : PanicsOnly P x)
    (h' : PanicsOnly P y) : PanicsOnly P (if c then x else y) := by
  split_ifs
  · exact h
  · exact h'

theorem PanicsOnly.foldlM {f : β → α → Result β} (h : ∀ s a, PanicsOnly P (f s a)) :
    ∀ (l : List α) (s : β), PanicsOnly P (l.foldlM f s)
  | [], s => panicsOnly_ok s
  | a :: l, s => by
    rw [List.foldlM_cons]
    exact (h s a).bind fun s' _ => PanicsOnly.foldlM h l s'

end PanicsOnly

/-- `x + y` on `u32`. -/
def addU32 (b : Build) (x y : UInt32) : Result UInt32 :=
  if b.overflowChecks && decide (2 ^ 32 ≤ x.toNat + y.toNat) then
    panicWith "attempt to add with overflow"
  else .ok (x + y)

end Kafel

end Pnut
