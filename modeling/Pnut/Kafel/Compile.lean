import Pnut.Kafel.Resolve
import Pnut.Kafel.Reverse

/-!
# Compilation

`parse_policy` of the public interface, which merges the prelude with the main text and resolves
the result, and `compile`.
-/

namespace Pnut.Kafel

variable (b : Build) (pest : Pest)

/-- The prelude's definitions and policies come before those of the main text; its `USE` statement
counts if the main text has none. -/
def mergePrelude (prelude file : Ast.PolicyFile) : Ast.PolicyFile :=
  { file with
    defines := prelude.defines ++ file.defines
    policies := prelude.policies ++ file.policies
    useStmt := file.useStmt <|> prelude.useStmt }

/-- The merged file that `parse_policy` validates and resolves. -/
def mergedFile (policyText : List Char) (options : CompileOptions) : Result Ast.PolicyFile := do
  let (file, _) ←
    Parser.parseWithIncludes b pest options options.maxIncludeDepth policyText [] none
  match options.prelude with
  | none => pure file
  | some preludeText => do
    let (prelude, _) ←
      Parser.parseWithIncludes b pest options options.maxIncludeDepth preludeText [] none
    pure (mergePrelude prelude file)

def parsePolicy (policyText : List Char) (options : CompileOptions) : Result Policy := do
  let file ← mergedFile b pest policyText options
  Parser.validatePolicy file
  resolve file

def compileWithOptions (policyText : List Char) (options : CompileOptions) :
    Result (List Bpf.SockFilter) := do
  let policy ← parsePolicy b pest policyText options
  policy.codegen b

def compile (policyText : List Char) : Result (List Bpf.SockFilter) :=
  compileWithOptions b pest policyText {}

end Pnut.Kafel
