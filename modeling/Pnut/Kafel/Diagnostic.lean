import Pnut.Kafel.Error
import Pnut.Lib.Text

/-!
# Diagnostics

`render_diagnostic`: an error with the line of the text it is about. A slice of a text panics unless
both its ends fall between characters.
-/

namespace Pnut.Kafel

open Peg (byteLen)
open Text (splitByte)

/-! ## Errors -/

/-- `Error::span`. -/
def Error.span : Error → Option Span
  | .parse _ span => span
  | .unknownSyscall _ span => span
  | .undefinedIdentifier _ span => span
  | .undeclaredArgument _ _ span => span
  | .circularUse _ span => span
  | .undefinedPolicy _ span => span
  | .codegen _ span => span
  | .includeNotFound _ span => span
  | .includeDepthExceeded => none
  | .circularInclude _ span => span

/-- The one line of an error. -/
def Error.display : Error → String
  | .parse message _ => s!"parse error: {message}"
  | .unknownSyscall name _ => s!"unknown syscall: '{name}'"
  | .undefinedIdentifier name _ => s!"undefined identifier: '{name}'"
  | .undeclaredArgument name sys _ => s!"undeclared argument '{name}' in syscall '{sys}'"
  | .circularUse policy _ => s!"circular USE reference involving policy '{policy}'"
  | .undefinedPolicy name _ => s!"USE references undefined policy '{name}'"
  | .codegen message _ => s!"codegen error: {message}"
  | .includeNotFound filename _ => s!"include file not found: '{filename}'"
  | .includeDepthExceeded => "include depth exceeded maximum limit"
  | .circularInclude filename _ => s!"circular include detected: '{filename}'"

/-! ## Positions -/

/-- `&source[a..b]`. -/
def slice (source : List Char) (a b : ℕ) : Result (List Char) :=
  match splitByte source b with
  | none => panicWith "byte index is not a char boundary"
  | some (front, _) =>
    match splitByte front a with
    | none => panicWith "byte index is not a char boundary"
    | some (_, mid) => .ok mid

/-- `&source[a..]`. -/
def sliceFrom (source : List Char) (a : ℕ) : Result (List Char) := slice source a (byteLen source)

/-- `find('\n')`. -/
def findNewline : List Char → Option ℕ
  | [] => none
  | c :: s => if c = '\n' then some 0 else (findNewline s).map (c.utf8Size + ·)

/-- `rfind('\n')`. -/
def rfindNewline : List Char → Option ℕ
  | [] => none
  | c :: s =>
    match rfindNewline s with
    | some i => some (c.utf8Size + i)
    | none => if c = '\n' then some 0 else none

/-- The loop of `line_col`. -/
def lineColFrom (target : ℕ) : ℕ → ℕ × ℕ → List Char → ℕ × ℕ
  | _, place, [] => place
  | idx, (line, col), c :: s =>
    if target ≤ idx then (line, col)
    else if c = '\n' then lineColFrom target (idx + c.utf8Size) (line + 1, 1) s
    else lineColFrom target (idx + c.utf8Size) (line, col + 1) s

def lineCol (source : List Char) (byte : ℕ) : ℕ × ℕ :=
  lineColFrom (min byte (byteLen source)) 0 (1, 1) source

def lineStartByte (source : List Char) (byte : ℕ) : Result ℕ := do
  let front ← slice source 0 byte
  pure (((rfindNewline front).map (· + 1)).getD 0)

/-! ## Rendering -/

/-- What the report shows of the text. -/
structure Snippet where
  line : ℕ
  col : ℕ
  lineText : List Char
  carets : ℕ
  deriving DecidableEq

/-- The computations of `render_snippet`. -/
def snippet (source : List Char) (span : Span) : Result Snippet := do
  let start := min span.start.toNat (byteLen source)
  let stop := max (min span.stop.toNat (byteLen source)) start
  let (line, col) := lineCol source start
  let lineStart ← lineStartByte source start
  let rest ← sliceFrom source lineStart
  let lineTextEnd := ((findNewline rest).map (lineStart + ·)).getD (byteLen source)
  let lineText ← slice source lineStart lineTextEnd
  -- the span may end on a later line, or where it starts
  let spanByteLenOnLine := min stop lineTextEnd - start
  let marked ← slice source start (start + spanByteLenOnLine)
  pure ⟨line, col, lineText, max marked.length 1⟩

/-- The lines `render_snippet` writes. -/
def Snippet.format (s : Snippet) (filename : Option String) : String :=
  let file := filename.getD "<input>"
  let num := toString s.line
  let gutter := String.ofList (List.replicate num.length ' ')
  let pad := String.ofList (List.replicate (s.col - 1) ' ')
  let carets := String.ofList (List.replicate s.carets '^')
  s!"{gutter}--> {file}:{s.line}:{s.col}\n" ++ s!"{gutter} |\n" ++
    s!"{num} | {String.ofList s.lineText}\n" ++ s!"{gutter} | {pad}{carets}\n"

def renderDiagnostic (err : Error) (source : List Char) (filename : Option String) :
    Result String :=
  let header := s!"error: {err.display}\n"
  match err.span with
  | none => .ok header
  | some span => do
    let s ← snippet source span
    pure (header ++ s.format filename)

end Pnut.Kafel
