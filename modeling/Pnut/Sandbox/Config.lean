import Pnut.Sandbox.Caps
import Pnut.Sandbox.Env
import Pnut.Sandbox.Fd
import Pnut.Sandbox.Landlock
import Pnut.Sandbox.Parent
import Pnut.Sandbox.Seccomp

/-!
# The configuration of a sandbox

`SandboxBuilder` and the checks of `Sandbox::try_from`. A sandbox carries what the checks have
found, so the parts that the source unwraps are there.
-/

namespace Pnut.Config

open Parent (IdMap)
open Pnut.Sandbox (Capabilities Environment Fault FdMapping FileDescriptors FileSystem Landlock
  SeccompSource Sources Table checkDestinations prepareProgram validateMounts)
open Bpf (SockFilter)
open Kafel (Pest)

/-! ## The builder -/

inductive RunMode where
  | once
  | execve
  deriving DecidableEq, Repr

structure Command where
  args : List String := []
  argv0 : Option String := none
  cwd : String := "/"

structure ProcessOptions where
  newSession : Bool := true
  dieWithParent : Bool := true
  noNewPrivs : Bool := true
  disableTsc : Bool := false
  dumpable : Bool := false
  forwardSignals : Bool := true
  mdwe : Bool := false

structure ResourceLimits where
  nofile : Option UInt64 := none
  nproc : Option UInt64 := none
  fsizeMb : Option UInt64 := none
  stackMb : Option UInt64 := none
  asMb : Option UInt64 := none
  coreMb : Option UInt64 := none
  cpuSeconds : Option UInt64 := none

structure Namespaces where
  user : Bool := true
  pid : Bool := true
  mount : Bool := true
  uts : Bool := true
  ipc : Bool := true
  net : Bool := true
  cgroup : Bool := true
  time : Bool := false
  hostname : Option String := none
  allowNestedUserns : Bool := false

/-- What `clone_flags` reads. -/
def Namespaces.created (ns : Namespaces) : Parent.Namespaces :=
  ⟨ns.user, ns.pid, ns.mount, ns.uts, ns.ipc, ns.net, ns.cgroup, ns.time⟩

/-- What the compiler of policies reads. -/
def Namespaces.nested (ns : Namespaces) : Pnut.Sandbox.Namespaces := ⟨ns.allowNestedUserns⟩

variable (C : Type)

structure SandboxBuilder where
  mode : RunMode := .once
  command : Command := {}
  process : ProcessOptions := {}
  namespaces : Namespaces := {}
  mounts : Table := []
  uidMap : Option IdMap := none
  gidMap : Option IdMap := none
  env : Option Environment := none
  rlimits : Option ResourceLimits := none
  landlock : Option Landlock := none
  capabilities : Option (Capabilities C) := none
  fd : Option FileDescriptors := none
  seccomp : Option SeccompSource := none

/-- A validated sandbox. -/
structure Sandbox where
  mode : RunMode
  command : Command
  process : ProcessOptions
  namespaces : Namespaces
  mounts : Table
  uidMap : IdMap
  gidMap : IdMap
  env : Option Environment
  rlimits : Option ResourceLimits
  landlock : Option Landlock
  capabilities : Option (Capabilities C)
  fd : Option FileDescriptors
  seccompProgram : Option (List SockFilter)
  args_ne_nil : command.args ≠ []
  uts_of_hostname : namespaces.hostname.isSome → namespaces.uts = true
  mount_of_mounts : mounts ≠ [] → namespaces.mount = true
  no_pid_of_execve : mode = .execve → namespaces.pid = false

/-! ## The checks -/

variable {C}

/-- The errors of `build`. -/
inductive BuildError where
  | invalidConfig (message : String)
  | seccomp (fault : Fault)

/-- `return Err(..)`, unless the condition holds. -/
def ensure (p : Prop) [Decidable p] (message : String) : Except BuildError (PLift p) :=
  if h : p then .ok ⟨h⟩ else .error (.invalidConfig message)

def required {α : Type} (x : Option α) (message : String) : Except BuildError α :=
  match x with
  | some a => .ok a
  | none => .error (.invalidConfig message)

section TryFrom

variable (b : Build) (pest : Pest) (prelude : List Char) (fs : FileSystem) (sources : Sources)

/-- `Sandbox::try_from`. -/
def SandboxBuilder.build (builder : SandboxBuilder C) : Except BuildError (Sandbox C) := do
  let ⟨hargs⟩ ← ensure (builder.command.args ≠ []) "no command specified"
  let uidMap ← required builder.uidMap "uid_map is required"
  let gidMap ← required builder.gidMap "gid_map is required"
  let ⟨huts⟩ ← ensure (builder.namespaces.hostname.isSome → builder.namespaces.uts = true)
    "hostname is set but UTS namespace is not enabled; set [namespaces] uts = true"
  let ⟨hmount⟩ ← ensure (builder.mounts ≠ [] → builder.namespaces.mount = true)
    ("mount entries configured but mount namespace is not enabled; " ++
      "set [namespaces] mount = true")
  let ⟨hpid⟩ ← ensure (builder.mode = .execve → builder.namespaces.pid = false)
    ("execve mode cannot use PID namespace " ++
      "(unshare(CLONE_NEWPID) only affects children, not the calling process)")
  (validateMounts sources 0 builder.mounts).mapError .invalidConfig
  (checkDestinations [] ((builder.fd.map (·.mappings)).getD [])).mapError .invalidConfig
  let seccompProgram ←
    (prepareProgram b pest prelude fs builder.seccomp builder.namespaces.nested).mapError .seccomp
  pure
    { mode := builder.mode
      command := builder.command
      process := builder.process
      namespaces := builder.namespaces
      mounts := builder.mounts
      uidMap := uidMap
      gidMap := gidMap
      env := builder.env
      rlimits := builder.rlimits
      landlock := builder.landlock
      capabilities := builder.capabilities
      fd := builder.fd
      seccompProgram := seccompProgram
      args_ne_nil := hargs
      uts_of_hostname := huts
      mount_of_mounts := hmount
      no_pid_of_execve := hpid }

end TryFrom

end Pnut.Config
