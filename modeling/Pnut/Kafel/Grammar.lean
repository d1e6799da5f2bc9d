import Pnut.Lib.Peg
import Pnut.Kafel.Error

/-!
# The policy grammar

The rules of `policy.pest`. In a rule that is not atomic, `~` and the repetitions skip white space
and comments between their parts. `WHITESPACE` and `COMMENT` are silent and themselves atomic, so
that no rule below a token is lost.
-/

namespace Pnut.Kafel

open Peg

inductive Rule where
  | file | includeDirective | stringLiteral | define | policy | useRef
  | actionBlock | action | errnoAction | trapAction | traceAction
  | syscallRules | syscallEntry | argDecl | filterBlock
  | boolExpr | orExpr | andExpr | notExpr | primaryExpr
  | comparison | cmpLhs | maskedExpr | cmpOp | cmpRhs
  | expr | exprAtom | useStmt
  | ident | number | whitespace | comment | eoi
  deriving DecidableEq, Repr

namespace Rule

def word (s : String) : Exp Rule := .lit s.toList

/-- `(WHITESPACE | COMMENT)*`, in the order pest tries them. -/
def skip : Exp Rule :=
  .seq (.star (.call whitespace)) (.star (.seq (.call comment) (.star (.call whitespace))))

/-- `e₁ ~ e₂ ~ …`, with white space skipped in between. -/
def tilde : List (Exp Rule) → Exp Rule
  | [] => .empty
  | [e] => e
  | e :: es => .seq e (.seq skip (tilde es))

/-- `e₁ ~ e₂ ~ …` inside an atomic rule. -/
def atomic : List (Exp Rule) → Exp Rule
  | [] => .empty
  | [e] => e
  | e :: es => .seq e (atomic es)

/-- `e₁ | e₂ | …`. -/
def choice : List (Exp Rule) → Exp Rule
  | [] => .empty
  | [e] => e
  | e :: es => .alt e (choice es)

/-- `e?`. -/
def opt (e : Exp Rule) : Exp Rule := .alt e .empty

/-- `e*`, with white space skipped between two matches. -/
def many (e : Exp Rule) : Exp Rule := opt (.seq e (.star (.seq skip e)))

/-- `e+` inside an atomic rule. -/
def plus (e : Exp Rule) : Exp Rule := .seq e (.star e)

def any : Exp Rule := .chr fun _ => true
def asciiAlpha : Exp Rule := .chr Char.isAlpha
def asciiAlphanumeric : Exp Rule := .chr Char.isAlphanum
def asciiDigit : Exp Rule := .chr Char.isDigit
def isHexDigit (c : Char) : Bool := c.isDigit || ('a' ≤ c && c ≤ 'f') || ('A' ≤ c && c ≤ 'F')
def isOctDigit (c : Char) : Bool := '0' ≤ c && c ≤ '7'
def asciiHexDigit : Exp Rule := .chr isHexDigit
def asciiOctDigit : Exp Rule := .chr isOctDigit
def newline : Exp Rule := choice [word "\n", word "\r\n", word "\r"]

/-- `SOI` holds at the start of the text, the only place the grammar uses it. -/
def soi : Exp Rule := .empty

def body : Rule → Exp Rule
  | file =>
    tilde [soi,
      many (choice [.call includeDirective, .call define, .call policy, .call useStmt]),
      .call eoi]
  | includeDirective => tilde [word "#include", .call stringLiteral]
  | stringLiteral =>
    atomic [word "\"", .star (atomic [.neg (word "\""), any]), word "\""]
  | define => tilde [word "#define", .call ident, .call expr]
  | policy =>
    tilde [word "POLICY", .call ident, word "\x7b",
      many (choice [.call actionBlock, .call useRef]), word "\x7d"]
  | useRef => tilde [word "USE", .call ident, opt (word ",")]
  | actionBlock => tilde [.call action, word "\x7b", .call syscallRules, word "\x7d"]
  | action =>
    choice [word "ALLOW", word "KILL_PROCESS", word "KILL", word "LOG", word "USER_NOTIF",
      .call errnoAction, .call trapAction, .call traceAction]
  | errnoAction => tilde [word "ERRNO", word "(", .call expr, word ")"]
  | trapAction => tilde [word "TRAP", word "(", .call expr, word ")"]
  | traceAction => tilde [word "TRACE", word "(", .call expr, word ")"]
  | syscallRules =>
    tilde [.call syscallEntry, many (tilde [word ",", .call syscallEntry]), opt (word ",")]
  | syscallEntry => tilde [.call ident, opt (.call argDecl), opt (.call filterBlock)]
  | argDecl => tilde [word "(", .call ident, many (tilde [word ",", .call ident]), word ")"]
  | filterBlock => tilde [word "\x7b", .call boolExpr, word "\x7d"]
  | boolExpr => tilde [.call orExpr, many (tilde [word ",", .call orExpr])]
  | orExpr => tilde [.call andExpr, many (tilde [word "||", .call andExpr])]
  | andExpr => tilde [.call notExpr, many (tilde [word "&&", .call notExpr])]
  | notExpr => choice [tilde [word "!", .call notExpr], .call primaryExpr]
  | primaryExpr => choice [tilde [word "(", .call boolExpr, word ")"], .call comparison]
  | comparison => tilde [.call cmpLhs, .call cmpOp, .call cmpRhs]
  | cmpLhs => choice [.call maskedExpr, .call ident]
  | maskedExpr => tilde [word "(", .call ident, word "&", .call expr, word ")"]
  | cmpOp => choice [word "==", word "!=", word "<=", word ">=", word "<", word ">"]
  | cmpRhs => .call expr
  | expr => tilde [.call exprAtom, many (tilde [word "|", .call exprAtom])]
  | exprAtom => choice [.call number, .call ident, tilde [word "(", .call expr, word ")"]]
  | useStmt =>
    tilde [word "USE", .call ident, many (tilde [word ",", .call ident]), word "DEFAULT",
      .call action]
  | ident =>
    atomic [choice [asciiAlpha, word "_"], .star (choice [asciiAlphanumeric, word "_"])]
  | number =>
    choice [atomic [word "0x", plus asciiHexDigit], atomic [word "0o", plus asciiOctDigit],
      plus asciiDigit]
  | whitespace => choice [word " ", word "\t", newline]
  | comment =>
    choice [atomic [word "//", .star (atomic [.neg newline, any])],
      atomic [word "/*", .star (atomic [.neg (word "*/"), any]), word "*/"]]
  | eoi => .eoi

def silent : Rule → Bool
  | whitespace | comment => true
  | _ => false

end Rule

def grammar : Grammar Rule := ⟨Rule.body, Rule.silent⟩

/-- No rule of the grammar reaches itself before it reads a character. -/
def ranked : Ranked grammar where
  null
    | .file | .eoi => true
    | _ => false
  rank
    | .boolExpr => 7 | .orExpr => 6 | .andExpr => 5 | .notExpr => 4 | .primaryExpr => 3
    | .comparison => 2 | .cmpLhs => 1 | .cmpRhs => 3 | .expr => 2 | .exprAtom => 1
    | .syscallEntry => 1 | .syscallRules => 2 | .action => 1 | .actionBlock => 2 | .file => 3
    | _ => 0
  top := 8
  width := 120
  null_body := by rintro ⟨⟩ <;> decide
  ranked_body := by rintro ⟨⟩ <;> decide
  rank_lt := by rintro ⟨⟩ <;> decide
  size_body := by rintro ⟨⟩ <;> decide

end Pnut.Kafel
