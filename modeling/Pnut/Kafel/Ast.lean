import Pnut.Kafel.Policy

/-!
# Syntax trees

What the builders make of a parse tree, and what resolution reads.
-/

namespace Pnut.Kafel.Ast

/-- An integer literal, an identifier or a bitwise OR. -/
inductive Expr where
  | number (n : UInt64)
  | ident (name : String) (span : Span)
  | bitOr (parts : List Expr)
  deriving Repr

/-- A seccomp return action. -/
inductive Action where
  | allow
  | kill
  | killProcess
  | log
  | userNotif
  | errno (value : Expr)
  | trap (value : Expr)
  | trace (value : Expr)
  deriving Repr

/-- The left-hand side of a comparison; the span is that of the argument's name. -/
inductive CmpLhs where
  | arg (name : String) (span : Span)
  | masked (name : String) (span : Span) (mask : Expr)
  deriving Repr

/-- A filter. No text gives a `literal`. -/
inductive BoolExpr where
  | compare (lhs : CmpLhs) (op : CmpOp) (rhs : Expr)
  | and (a b : BoolExpr)
  | or (a b : BoolExpr)
  | not (inner : BoolExpr)
  | literal (value : Bool)
  deriving Repr

structure SyscallRule where
  name : String
  nameSpan : Span
  args : List String
  filter : Option BoolExpr
  deriving Repr

structure ActionBlock where
  action : Action
  rules : List SyscallRule
  deriving Repr

inductive PolicyEntry where
  | actionBlock (block : ActionBlock)
  | useRef (name : String) (span : Span)
  deriving Repr

structure Policy where
  name : String
  entries : List PolicyEntry
  deriving Repr

structure Include where
  filename : String
  span : Span
  deriving Repr

structure UseStmt where
  policies : List (String × Span)
  defaultAction : Action
  deriving Repr

structure PolicyFile where
  includes : List Include := []
  defines : List (String × Expr) := []
  policies : List Policy := []
  useStmt : Option UseStmt := none
  deriving Repr

end Pnut.Kafel.Ast
