import Pnut.Child.Mount

/-!
# The mount table of a sandbox

The entries of a configuration, the checks a sandbox is built with, and the plan that the child is
handed. An error is the text of an `InvalidConfig`.
-/

namespace Pnut.Sandbox

open Child (MountPlan ProcSubset HidePid)

/-- `mount::MountEntry`. -/
inductive MountEntry where
  | bind (src dst : String) (readOnly : Bool)
  | tmpfs (dst : String) (size : Option UInt64) (mode : Option UInt32) (readOnly : Bool)
  | proc (dst : String) (subset : Option ProcSubset) (hidepid : Option HidePid)
  | mqueue (dst : String)
  | file (dst content : String) (readOnly : Bool)

/-- `mount::Table`. -/
abbrev Table := List MountEntry

/-- What the host says of the sources of bind mounts: whether a path exists, and whether it is a
directory or why its metadata cannot be read. -/
structure Sources where
  pathExists : String → Bool
  isDir : String → Except String Bool

section Prepare

variable (sources : Sources)

/-- The loop of `Sandbox::try_from` over the entries. -/
def validateMounts : ℕ → Table → Except String Unit
  | _, [] => .ok ()
  | i, .bind src _ _ :: entries =>
    if sources.pathExists src then validateMounts (i + 1) entries
    else .error s!"mount entry {i}: bind mount source path does not exist: {src}"
  | i, _ :: entries => validateMounts (i + 1) entries

/-- The checks of `Sandbox::try_from` that read the mount table. -/
def validateTable (mountNamespace : Bool) (table : Table) : Except String Unit :=
  if !table.isEmpty && !mountNamespace then
    .error ("mount entries configured but mount namespace is not enabled; " ++
      "set [namespaces] mount = true")
  else validateMounts sources 0 table

/-- `alloc_cstr`. -/
def allocCstr (s context : String) : Except String String :=
  if Char.ofNat 0 ∈ s.toList then .error (context ++ ": interior null byte in \"" ++ s ++ "\"")
  else .ok s

theorem allocCstr_ok {s context t : String} (h : allocCstr s context = .ok t) : t = s := by
  unfold allocCstr at h
  split_ifs at h
  exact (Except.ok.inj h).symm

/-- `trim_start_matches('/')`. -/
def trimSlashes (dst : String) : String := String.ofList (dst.toList.dropWhile (· = '/'))

def mountDst (dst : String) : Except String String := allocCstr (trimSlashes dst) "mount dst"

def MountEntry.prepare : MountEntry → Except String Child.MountEntry
  | .bind src dst readOnly =>
    match sources.isDir src with
    | .error e => .error s!"cannot stat bind source {src}: {e}"
    | .ok srcIsDir => do
      let source ← allocCstr src "mount src"
      let dstRel ← mountDst dst
      pure (.bind (.path source) dstRel srcIsDir readOnly)
  | .tmpfs dst size mode readOnly => do
    let dstRel ← mountDst dst
    pure (.tmpfs dstRel readOnly size mode)
  | .proc dst subset hidepid => do
    let dstRel ← mountDst dst
    pure (.proc dstRel subset hidepid)
  | .mqueue dst => do
    let dstRel ← mountDst dst
    pure (.mqueue dstRel)
  | .file dst content readOnly => do
    let dstRel ← mountDst dst
    pure (.file dstRel content.toUTF8.data.toList readOnly)

def prepareEntries : Table → Except String (List Child.MountEntry)
  | [] => .ok []
  | entry :: entries => do
    let prepared ← entry.prepare sources
    pure (prepared :: (← prepareEntries entries))

/-- `Table::prepare`. -/
def prepareTable (table : Table) : Except String MountPlan := do
  pure ⟨← prepareEntries sources table⟩

end Prepare

end Pnut.Sandbox
