import Pnut.Kafel.Error

/-!
# Resolved policies

The intermediate representation between resolution and code generation: a flat list of rules with
numeric syscall numbers, and filters whose names have become argument indices and constants.
-/

namespace Pnut.Kafel

inductive CmpOp where
  | eq | ne | lt | le | gt | ge
  deriving DecidableEq, Repr

/-- A resolved seccomp action. -/
inductive Action where
  | allow
  | kill
  | killProcess
  | log
  | userNotif
  | errno (n : UInt32)
  | trap (n : UInt32)
  | trace (n : UInt32)
  deriving DecidableEq, Repr

/-- A resolved expression tree. -/
inductive Expr where
  | constant (v : UInt64)
  | arg (idx : UInt8)
  | boolConst (b : Bool)
  | compare (lhs : Expr) (op : CmpOp) (rhs : Expr)
  | maskedCompare (argIndex : UInt8) (mask : Expr) (op : CmpOp) (rhs : Expr)
  | and (left right : Expr)
  | or (left right : Expr)
  | not (inner : Expr)
  | bitOr (parts : List Expr)
  deriving Repr

structure PolicyEntry where
  syscallNumber : UInt32
  action : Action
  filter : Option Expr
  deriving Repr

structure Policy where
  entries : List PolicyEntry
  defaultAction : Action
  deriving Repr

def Policy.addEntry (p : Policy) (entry : PolicyEntry) : Policy :=
  { p with entries := p.entries ++ [entry] }

/-- A comparison of unsigned 64-bit values. -/
def evaluateCmp (op : CmpOp) (lhs rhs : UInt64) : Bool :=
  match op with
  | .eq => lhs == rhs
  | .ne => lhs != rhs
  | .lt => lhs < rhs
  | .le => lhs ≤ rhs
  | .gt => lhs > rhs
  | .ge => lhs ≥ rhs

/-! ## What a policy says -/

section Meaning

variable (args : UInt8 → UInt64)

/-- The value of a value expression. -/
def Expr.value : Expr → UInt64
  | .constant v => v
  | .arg idx => args idx
  | .bitOr parts => values parts
  | _ => 0
where
  values : List Expr → UInt64
    | [] => 0
    | e :: es => e.value ||| values es

/-- The truth of a filter, its comparisons read over the unsigned 64-bit arguments. -/
def Expr.holds : Expr → Bool
  | .boolConst b => b
  | .compare lhs op rhs => evaluateCmp op (lhs.value args) (rhs.value args)
  | .maskedCompare argIndex mask op rhs =>
    evaluateCmp op (args argIndex &&& mask.value args) (rhs.value args)
  | .and left right => left.holds && right.holds
  | .or left right => left.holds || right.holds
  | .not inner => !inner.holds
  | .constant v => v != 0
  | .arg _ | .bitOr _ => true

end Meaning

/-- The entries for one syscall number, in list order. -/
def Policy.entriesFor (p : Policy) (nr : UInt32) : List PolicyEntry :=
  p.entries.filter (·.syscallNumber = nr)

/-- The action of `entries` when `truth` decides the filters: the first entry whose filter is
true, else the first without a filter, else `default`. -/
def selectAction (truth : Expr → Bool) (entries : List PolicyEntry) (default : Action) : Action :=
  match entries.find? fun e => e.filter.any truth with
  | some e => e.action
  | none =>
    match entries.find? fun e => e.filter.isNone with
    | some e => e.action
    | none => default

def Policy.select (p : Policy) (truth : Expr → Bool) (nr : UInt32) : Action :=
  selectAction truth (p.entriesFor nr) p.defaultAction

end Pnut.Kafel
