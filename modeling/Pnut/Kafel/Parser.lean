import Pnut.Kafel.Builders

/-!
# Parsing

`parse_policy` on the text of one file, `parse_with_includes` on a file and what it includes, and
the validation of a merged file. The parser that pest generates from the grammar is a parameter:
only its error texts are not given by the grammar.
-/

namespace Pnut.Kafel

open Peg

inductive InputLocation where
  | pos (p : ℕ)
  | span (s e : ℕ)
  deriving DecidableEq, Repr

/-- A `pest::error::Error`: its message and its place. -/
structure PestError where
  message : String
  location : InputLocation
  deriving DecidableEq, Repr

/-- `SeccompParser::parse(Rule::file, input)`. -/
abbrev Pest := List Char → Except PestError (List Tree)

/-- The tokens are those of the grammar's ordered choice and greedy repetition. -/
def Pest.Accepts (tokens : List Tree) (input : List Char) : Prop :=
  ∃ text rest, Derives grammar (.call .file) 0 input (some ⟨tokens, text, rest⟩)

/-- The parser finds what the grammar derives, and rejects every other text. -/
def Pest.Faithful (pest : Pest) : Prop :=
  ∀ input tokens, pest input = .ok tokens ↔ Pest.Accepts tokens input

/-- The trees of accepted texts conform to the grammar. -/
def Pest.Conforms (pest : Pest) : Prop :=
  ∀ input tokens, pest input = .ok tokens → ∃ text, Yields grammar (.call .file) text tokens

/-- The interpreter of the grammar; `error` stands for pest's account of a failure. -/
def Pest.interpreter (error : List Char → PestError) : Pest := fun input =>
  match ranked.parse .file input with
  | some m => .ok m.toks
  | none => .error (error input)

/-- No account of a failure. -/
def silentError : List Char → PestError := fun _ => ⟨"", .pos 0⟩

theorem Pest.interpreter_faithful (error : List Char → PestError) :
    (Pest.interpreter error).Faithful := by
  intro input tokens
  rw [Pest.interpreter]
  cases h : ranked.parse .file input with
  | none =>
    rw [Ranked.parse_eq] at h
    refine ⟨fun h => by simp at h, fun ⟨text, rest, hd⟩ => ?_⟩
    cases h.unique hd
  | some m =>
    rw [Ranked.parse_eq] at h
    constructor
    · rintro ⟨⟩
      exact ⟨m.text, m.rest, h⟩
    · rintro ⟨text, rest, hd⟩
      cases h.unique hd
      rfl

theorem Pest.Faithful.conforms {pest : Pest} (h : pest.Faithful) : pest.Conforms := by
  intro input tokens hp
  obtain ⟨text, rest, hd⟩ := (h input tokens).1 hp
  exact ⟨text, hd.yields _ rfl⟩

/-- What an include resolver returns. -/
structure IncludeResult where
  contents : List Char
  canonicalName : Option String

/-- A resolver reads the file name of a directive and the name of the file it stands in. -/
abbrev IncludeResolver := String → Option String → Except Error IncludeResult

structure CompileOptions where
  includeResolver : Option IncludeResolver := none
  prelude : Option (List Char) := none
  maxIncludeDepth : ℕ := 10

/-- The end of the span of a single position is computed on `u32`. -/
def pestToParseError (b : Build) (err : PestError) : Result Error :=
  match err.location with
  | .pos p => do
    let stop ← addU32 b (UInt32.ofNat p) 1
    pure (.parse err.message (some ⟨UInt32.ofNat p, stop⟩))
  | .span s e => pure (.parse err.message (some ⟨UInt32.ofNat s, UInt32.ofNat e⟩))

namespace Parser

variable (b : Build) (pest : Pest) (options : CompileOptions)

/-- `parse_policy`. The inner result is the one Rust returns, the outer one a panic of a builder. -/
def parsePolicy (input : List Char) : Result (Except PestError Ast.PolicyFile) :=
  match pest input with
  | .error err => pure (.error err)
  | .ok pairs => do pure (.ok (← buildFile pairs))

/-- `parse_policy(input).map_err(pest_to_parse_error)?`. -/
def parseText (input : List Char) : Result Ast.PolicyFile := do
  match ← parsePolicy pest input with
  | .error err => errWith (← pestToParseError b err)
  | .ok file => pure file

/-- What an included file adds: its definitions and policies after those there are, and its `USE`
statement if there is none. -/
def mergeIncluded (file included : Ast.PolicyFile) : Ast.PolicyFile :=
  { file with
    defines := file.defines ++ included.defines
    policies := file.policies ++ included.policies
    useStmt := file.useStmt <|> included.useStmt }

/-- The loop over the include directives of a file; `deeper` parses an included file, unless the
depth limit is reached. The set of includes in progress is passed along. -/
def includeLoop (parent : Option String)
    (deeper : Option
      (List Char → List String → Option String → Result (Ast.PolicyFile × List String))) :
    Ast.PolicyFile → List String → List Ast.Include → Result (Ast.PolicyFile × List String)
  | file, seen, [] => pure (file, seen)
  | file, seen, ⟨filename, span⟩ :: includes =>
    match deeper with
    | none => errWith .includeDepthExceeded
    | some deeper =>
      if filename ∈ seen then errWith (.circularInclude filename (some span))
      else
        match options.includeResolver with
        | none => errWith (.includeNotFound filename (some span))
        | some resolver =>
          match resolver filename parent with
          | .error (.includeNotFound filename none) =>
            errWith (.includeNotFound filename (some span))
          | .error e => errWith e
          | .ok result => do
            let (included, seen) ←
              deeper result.contents (filename :: seen) (some (result.canonicalName.getD filename))
            includeLoop parent (some deeper) (mergeIncluded file included)
              (seen.filter (· ≠ filename)) includes

/-- `parse_with_includes`, with the depth that is left. -/
def parseWithIncludes :
    ℕ → List Char → List String → Option String → Result (Ast.PolicyFile × List String)
  | 0, input, seen, parent => do
    let file ← parseText b pest input
    includeLoop options parent none { file with includes := [] } seen file.includes
  | left + 1, input, seen, parent => do
    let file ← parseText b pest input
    includeLoop options parent (some (parseWithIncludes left)) { file with includes := [] } seen
      file.includes

/-- The `USE` references of a list must name policies of the file. -/
def checkNames (definedNames : List String) : List (String × Span) → Result Unit
  | [] => pure ()
  | (name, span) :: names =>
    if name ∈ definedNames then checkNames definedNames names
    else errWith (.undefinedPolicy name (some span))

def validateRules : List Ast.SyscallRule → Result Unit
  | [] => pure ()
  | rule :: rules =>
    if rule.args.length > 6 then
      errWith (.parse ("syscall '" ++ rule.name ++ "' declares " ++ toString rule.args.length
        ++ " arguments (max 6)") (some rule.nameSpan))
    else validateRules rules

def validateEntries (definedNames : List String) : List Ast.PolicyEntry → Result Unit
  | [] => pure ()
  | .actionBlock block :: entries => do
    validateRules block.rules
    validateEntries definedNames entries
  | .useRef name span :: entries => do
    checkNames definedNames [(name, span)]
    validateEntries definedNames entries

def validatePolicies (definedNames : List String) : List Ast.Policy → Result Unit
  | [] => pure ()
  | policy :: policies => do
    validateEntries definedNames policy.entries
    validatePolicies definedNames policies

def validatePolicy (file : Ast.PolicyFile) : Result Unit := do
  let definedNames := file.policies.map (·.name)
  validatePolicies definedNames file.policies
  match file.useStmt with
  | some useStmt => checkNames definedNames useStmt.policies
  | none => pure ()

end Parser

end Pnut.Kafel
