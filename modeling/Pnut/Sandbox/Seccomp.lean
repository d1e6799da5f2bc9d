import Pnut.Kafel.Compile

/-!
# The sandbox's seccomp program

`prepare_program`: the policy of the user with the rules the sandbox adds to it. The text of the
prelude that is compiled in, and the file system, are parameters.
-/

namespace Pnut.Sandbox

open Kafel (Pest Policy PolicyEntry CompileOptions IncludeResult)
open Bpf (SockFilter)

/-! ## Paths -/

namespace Path

/-- A reversed path without the separators and the `.` components it ends in. -/
def trimEnd : List Char → List Char
  | '/' :: s => trimEnd s
  | '.' :: '/' :: s => trimEnd s
  | s => s

def isAbsolute (path : List Char) : Bool := path.head? = some '/'

/-- `Path::parent`: the path without its last component, if it has one. -/
def parent (path : List Char) : Option (List Char) :=
  match trimEnd path.reverse with
  | [] => none
  | last =>
    match last.dropWhile (· ≠ '/') with
    | [] => some []
    | rest => if trimEnd rest = [] then some ['/'] else some (trimEnd rest).reverse

/-- `Path::join`. -/
def join (dir path : List Char) : List Char :=
  if isAbsolute path || dir.isEmpty then path
  else if dir.getLast? = some '/' then dir ++ path
  else dir ++ '/' :: path

end Path

/-- The file system as the compiler of policies reads it. An error is its text. -/
structure FileSystem where
  readToString : String → Except String (List Char)
  canonicalize : String → Except String String

/-- `FilesystemResolver::resolve`. -/
def FileSystem.resolve (fs : FileSystem) (baseDir : String) : Kafel.IncludeResolver :=
  fun filename parent =>
    let resolved :=
      if Path.isAbsolute filename.toList then filename
      else
        let dir := (parent.bind fun p => Path.parent p.toList).getD baseDir.toList
        String.ofList (Path.join dir filename.toList)
    let notFound : Except Kafel.Error IncludeResult := .error (.includeNotFound filename none)
    match fs.canonicalize resolved with
    | .error _ => notFound
    | .ok canonical =>
      match fs.readToString canonical with
      | .error _ => notFound
      | .ok contents => .ok ⟨contents, some canonical⟩

/-! ## Configuration -/

/-- Of the namespaces of a configuration, what the compiler of policies reads. -/
structure Namespaces where
  allowNestedUserns : Bool := false

inductive SeccompSource where
  | inline (policyText : List Char)
  | file (policyPath : String)

/-- What a compile error is rendered from: the error, and the text and the file name it is shown
in, if it has any. -/
inductive BuildError where
  | seccompFileRead (path source : String)
  | seccompCompile (e : Kafel.Error) (shown : Option (List Char × Option String))

inductive Fault where
  | error (e : BuildError)
  | panic (message : String)

abbrev Result := Except Fault

/-- `Result::map_err` on what the compiler of policies returns. -/
def mapErr {α : Type} (f : Kafel.Error → BuildError) : Kafel.Result α → Result α
  | .ok a => .ok a
  | .error (.error e) => .error (.error (f e))
  | .error (.panic message) => .error (.panic message)

/-! ## The rules of the sandbox -/

def CLONE_NEWNS : UInt64 := 0x00020000
def CLONE_NEWCGROUP : UInt64 := 0x02000000
def CLONE_NEWUTS : UInt64 := 0x04000000
def CLONE_NEWIPC : UInt64 := 0x08000000
def CLONE_NEWUSER : UInt64 := 0x10000000
def CLONE_NEWPID : UInt64 := 0x20000000
def CLONE_NEWNET : UInt64 := 0x40000000

def EPERM : UInt32 := 1
def ENOSYS : UInt32 := 38

def UNSAFE_NS_FLAGS : UInt64 :=
  CLONE_NEWNS ||| CLONE_NEWUSER ||| CLONE_NEWNET ||| CLONE_NEWUTS ||| CLONE_NEWCGROUP |||
    CLONE_NEWIPC ||| CLONE_NEWPID

/-- The loop body of `compile_policy`. -/
def allowStartup (policy : Policy) (name : String) : Kafel.Result Policy := do
  let nr ← Kafel.resolveSyscall name
  pure (policy.addEntry ⟨nr, .allow, none⟩)

/-- The loop body of `inject_userns_deny`. -/
def denyFlagged (policy : Policy) (name : String) : Kafel.Result Policy := do
  let nr ← Kafel.resolveSyscall name
  pure (policy.addEntry
    ⟨nr, .errno EPERM, some (.maskedCompare 0 (.constant UNSAFE_NS_FLAGS) .ne (.constant 0))⟩)

def injectUsernsDeny (policy : Policy) : Result Policy :=
  mapErr (.seccompCompile · none) do
    let clone3Nr ← Kafel.resolveSyscall "clone3"
    let policy := policy.addEntry ⟨clone3Nr, .errno ENOSYS, none⟩
    ["clone", "unshare"].foldlM denyFlagged policy

section Prepare

variable (b : Build) (pest : Pest) (prelude : List Char) (fs : FileSystem)

def compilePolicy (policyText : List Char) (baseDir filename : Option String)
    (blockNestedUserns : Bool) : Result (Option (List SockFilter)) := do
  let options : CompileOptions :=
    { prelude := some prelude, includeResolver := baseDir.map fs.resolve }
  let render (e : Kafel.Error) := BuildError.seccompCompile e (some (policyText, filename))
  let policy ← mapErr render (Kafel.parsePolicy b pest policyText options)
  let policy ← mapErr render (["execve", "execveat", "chdir"].foldlM allowStartup policy)
  let policy ← (if blockNestedUserns then injectUsernsDeny policy else pure policy)
  let program ← mapErr render (policy.codegen b)
  pure (some program)

def prepareProgram (source : Option SeccompSource) (nsConfig : Namespaces) :
    Result (Option (List SockFilter)) :=
  let needUsernsBlock := !nsConfig.allowNestedUserns
  match source with
  | some (.inline policyText) =>
    compilePolicy b pest prelude fs policyText none none needUsernsBlock
  | some (.file policyPath) =>
    match fs.readToString policyPath with
    | .error e => .error (.error (.seccompFileRead policyPath e))
    | .ok contents =>
      let baseDir := String.ofList ((Path.parent policyPath.toList).getD ['.'])
      compilePolicy b pest prelude fs contents (some baseDir) (some policyPath) needUsernsBlock
  | none =>
    if needUsernsBlock then do
      let policy ← injectUsernsDeny ⟨[], .allow⟩
      let program ← mapErr (.seccompCompile · none) (policy.codegen b)
      pure (some program)
    else pure none

end Prepare

end Pnut.Sandbox
