import Pnut.Kafel.Ast
import Pnut.Kafel.Grammar

/-!
# Builders

The functions that turn a parse tree into a syntax tree. They take the children of each rule to be
what the grammar says, and panic where they are not.
-/

namespace Pnut.Kafel

open Peg

/-- The parse trees of policy texts. -/
abbrev Tree := Pair Rule

/-- The span of a token, its byte offsets cut to 32 bits. -/
def spanOf (pair : Tree) : Span :=
  ⟨UInt32.ofNat pair.start, UInt32.ofNat (pair.start + byteLen pair.text)⟩

def asStr (pair : Tree) : String := String.ofList pair.text

/-- `next().unwrap()` on the children of a token. -/
def next : List Tree → Result (Tree × List Tree)
  | [] => panicWith "called `Option::unwrap()` on a `None` value"
  | p :: ps => .ok (p, ps)

def unreachable {α : Type} : Result α := panicWith "internal error: entered unreachable code"

/-! ## Numbers -/

/-- `char::to_digit`. -/
def toDigit (radix : ℕ) (c : Char) : Option ℕ :=
  let d :=
    if c.isDigit then c.toNat - '0'.toNat
    else if c.isLower then c.toNat - 'a'.toNat + 10
    else if c.isUpper then c.toNat - 'A'.toNat + 10
    else radix
  if d < radix then some d else none

/-- The value of more digits after `acc`, unless it leaves `u64` on the way. -/
def digits (radix : ℕ) : ℕ → List Char → Option UInt64
  | acc, [] => some (UInt64.ofNat acc)
  | acc, c :: s =>
    match toDigit radix c with
    | none => none
    | some d => if acc * radix + d < 2 ^ 64 then digits radix (acc * radix + d) s else none

/-- `u64::from_str_radix`. -/
def fromStrRadix (radix : ℕ) : List Char → Option UInt64
  | [] => none
  | '+' :: s => if s = [] then none else digits radix 0 s
  | s => digits radix 0 s

def parseNumber (s : List Char) : Result UInt64 :=
  let value :=
    match stripPrefix "0x".toList s with
    | some hex => fromStrRadix 16 hex
    | none =>
      match stripPrefix "0o".toList s with
      | some oct => fromStrRadix 8 oct
      | none => fromStrRadix 10 s
  match value with
  | some n => .ok n
  | none => panicWith ("numeric literal overflows u64: " ++ String.ofList s)

/-! ## Value expressions -/

mutual

def parseExpr : Tree → Result Ast.Expr
  | .mk _ _ _ children => do
    match ← parseExprAtoms children with
    | [atom] => pure atom
    | atoms => pure (.bitOr atoms)

def parseExprAtoms : List Tree → Result (List Ast.Expr)
  | [] => pure []
  | p :: ps => do
    let atom ← parseExprAtom p
    let atoms ← parseExprAtoms ps
    pure (atom :: atoms)

def parseExprAtom : Tree → Result Ast.Expr
  | .mk _ _ _ [] => panicWith "called `Option::unwrap()` on a `None` value"
  | .mk _ _ _ (inner :: _) =>
    match inner.rule with
    | .number => do pure (.number (← parseNumber inner.text))
    | .ident => pure (.ident (asStr inner) (spanOf inner))
    | .expr => parseExpr inner
    | _ => panicWith "internal error: entered unreachable code: unexpected atom child"

end

/-! ## Filters -/

def parseCmpOp (pair : Tree) : Result CmpOp :=
  match asStr pair with
  | "==" => .ok .eq
  | "!=" => .ok .ne
  | "<" => .ok .lt
  | "<=" => .ok .le
  | ">" => .ok .gt
  | ">=" => .ok .ge
  | other => panicWith ("unknown comparison operator: " ++ other)

def parseCmpLhs (pair : Tree) : Result Ast.CmpLhs := do
  let (inner, _) ← next pair.children
  match inner.rule with
  | .maskedExpr =>
    let (namePair, parts) ← next inner.children
    let (maskPair, _) ← next parts
    pure (.masked (asStr namePair) (spanOf namePair) (← parseExpr maskPair))
  | .ident => pure (.arg (asStr inner) (spanOf inner))
  | _ => panicWith "internal error: entered unreachable code: unexpected cmp_lhs child"

def parseComparison (pair : Tree) : Result Ast.BoolExpr := do
  let (lhsPair, inner) ← next pair.children
  let lhs ← parseCmpLhs lhsPair
  let (opPair, inner) ← next inner
  let op ← parseCmpOp opPair
  let (rhsPair, _) ← next inner
  let (exprPair, _) ← next rhsPair.children
  let rhs ← parseExpr exprPair
  pure (.compare lhs op rhs)

mutual

def parseBoolExpr : Tree → Result Ast.BoolExpr
  | .mk _ _ _ [] => panicWith "called `Option::unwrap()` on a `None` value"
  | .mk _ _ _ (p :: ps) => do orExprs (← parseOrExpr p) ps

/-- The operands of `,` after the first. -/
def orExprs (result : Ast.BoolExpr) : List Tree → Result Ast.BoolExpr
  | [] => pure result
  | p :: ps => do orExprs (.or result (← parseOrExpr p)) ps

def parseOrExpr : Tree → Result Ast.BoolExpr
  | .mk _ _ _ [] => panicWith "called `Option::unwrap()` on a `None` value"
  | .mk _ _ _ (p :: ps) => do andExprs (← parseAndExpr p) ps

/-- The operands of `||` after the first. -/
def andExprs (result : Ast.BoolExpr) : List Tree → Result Ast.BoolExpr
  | [] => pure result
  | p :: ps => do andExprs (.or result (← parseAndExpr p)) ps

def parseAndExpr : Tree → Result Ast.BoolExpr
  | .mk _ _ _ [] => panicWith "called `Option::unwrap()` on a `None` value"
  | .mk _ _ _ (p :: ps) => do notExprs (← parseNotExpr p) ps

/-- The operands of `&&` after the first. -/
def notExprs (result : Ast.BoolExpr) : List Tree → Result Ast.BoolExpr
  | [] => pure result
  | p :: ps => do notExprs (.and result (← parseNotExpr p)) ps

def parseNotExpr : Tree → Result Ast.BoolExpr
  | .mk _ _ _ [child] =>
    match child.rule with
    | .notExpr => do pure (.not (← parseNotExpr child))
    | .primaryExpr => parsePrimaryExpr child
    | _ => unreachable
  | .mk _ _ _ _ => unreachable

def parsePrimaryExpr : Tree → Result Ast.BoolExpr
  | .mk _ _ _ [] => panicWith "called `Option::unwrap()` on a `None` value"
  | .mk _ _ _ (inner :: _) =>
    match inner.rule with
    | .boolExpr => parseBoolExpr inner
    | .comparison => parseComparison inner
    | _ => unreachable

end

/-! ## Actions, rules and policies -/

/-- `str::trim` on a text whose white space is ASCII. -/
def trim (s : List Char) : List Char :=
  ((s.dropWhile Char.isWhitespace).reverse.dropWhile Char.isWhitespace).reverse

def parseAction (pair : Tree) : Result Ast.Action :=
  let keyword : Result Ast.Action :=
    match String.ofList (trim pair.text) with
    | "ALLOW" => .ok .allow
    | "KILL" => .ok .kill
    | "KILL_PROCESS" => .ok .killProcess
    | "LOG" => .ok .log
    | "USER_NOTIF" => .ok .userNotif
    | other => panicWith ("unknown action: " ++ other)
  match pair.children with
  | [] => keyword
  | inner :: _ =>
    match inner.rule with
    | .errnoAction => do
      let (e, _) ← next inner.children
      pure (.errno (← parseExpr e))
    | .trapAction => do
      let (e, _) ← next inner.children
      pure (.trap (← parseExpr e))
    | .traceAction => do
      let (e, _) ← next inner.children
      pure (.trace (← parseExpr e))
    | _ => keyword

/-- The `for` loop of `parse_syscall_entry` over what follows the name. -/
def entryItems (rule : Ast.SyscallRule) : List Tree → Result Ast.SyscallRule
  | [] => pure rule
  | item :: items =>
    match item.rule with
    | .argDecl => entryItems { rule with args := item.children.map asStr } items
    | .filterBlock => do
      let (e, _) ← next item.children
      let filter ← parseBoolExpr e
      entryItems { rule with filter := some filter } items
    | _ => entryItems rule items

def parseSyscallEntry (pair : Tree) : Result Ast.SyscallRule := do
  let (namePair, items) ← next pair.children
  entryItems ⟨asStr namePair, spanOf namePair, [], none⟩ items

def parseActionBlock (pair : Tree) : Result Ast.ActionBlock := do
  let (actionPair, inner) ← next pair.children
  let action ← parseAction actionPair
  let (rulesPair, _) ← next inner
  let rules ← rulesPair.children.mapM parseSyscallEntry
  pure ⟨action, rules⟩

/-- The `for` loop of `parse_policy_block`. -/
def policyItems : List Tree → Result (List Ast.PolicyEntry)
  | [] => pure []
  | item :: items =>
    match item.rule with
    | .actionBlock => do
      let block ← parseActionBlock item
      pure (.actionBlock block :: (← policyItems items))
    | .useRef => do
      let (namePair, _) ← next item.children
      pure (.useRef (asStr namePair) (spanOf namePair) :: (← policyItems items))
    | _ => policyItems items

def parsePolicyBlock (pair : Tree) : Result Ast.Policy := do
  let (namePair, inner) ← next pair.children
  let entries ← policyItems inner
  pure ⟨asStr namePair, entries⟩

/-- The `loop` of `parse_use_stmt`: names up to the action. -/
def useNames (policies : List (String × Span)) : List Tree → Result Ast.UseStmt
  | [] => panicWith "called `Option::unwrap()` on a `None` value"
  | p :: ps =>
    match p.rule with
    | .ident => useNames (policies ++ [(asStr p, spanOf p)]) ps
    | .action => do pure ⟨policies, ← parseAction p⟩
    | _ => useNames policies ps

def parseUseStmt (pair : Tree) : Result Ast.UseStmt := useNames [] pair.children

/-- `raw[1..raw.len() - 1]`, a slice at byte offsets. -/
def stripQuotes (raw : List Char) : Result String :=
  match raw with
  | c :: rest =>
    match rest.getLast? with
    | some d =>
      if c.utf8Size = 1 ∧ d.utf8Size = 1 then .ok (String.ofList rest.dropLast)
      else panicWith "byte index is not a char boundary"
    | none => panicWith "begin <= end (1 <= 0) when slicing"
  | [] => panicWith "attempt to subtract with overflow"

/-- The loop of `parse_policy` over the children of `file`. -/
def fileItems (file : Ast.PolicyFile) : List Tree → Result Ast.PolicyFile
  | [] => pure file
  | pair :: pairs =>
    match pair.rule with
    | .includeDirective => do
      let (stringLit, _) ← next pair.children
      let filename ← stripQuotes stringLit.text
      fileItems { file with includes := file.includes ++ [⟨filename, spanOf pair⟩] } pairs
    | .define => do
      let (namePair, inner) ← next pair.children
      let (valuePair, _) ← next inner
      let value ← parseExpr valuePair
      fileItems { file with defines := file.defines ++ [(asStr namePair, value)] } pairs
    | .policy => do
      let policy ← parsePolicyBlock pair
      fileItems { file with policies := file.policies ++ [policy] } pairs
    | .useStmt => do
      let useStmt ← parseUseStmt pair
      fileItems { file with useStmt := some useStmt } pairs
    | _ => fileItems file pairs

/-- What `parse_policy` makes of the tokens of a successful parse. -/
def buildFile (pairs : List Tree) : Result Ast.PolicyFile := do
  let (file, _) ← next pairs
  fileItems {} file.children

end Pnut.Kafel
