import Pnut.Sandbox.Config

/-!
# The spec of a sandbox

`Sandbox::prepare`, which makes of a sandbox what the child is handed. An error is the text of an
`InvalidConfig`.
-/

namespace Pnut.Config

open Child (CInt CStr ChildSpec ExecSpec ProcessSpec RlimitEntry RlimitSpec SeccompSpec)
open Pnut.Sandbox (Sources allocCstr)
open Bpf (SockFilter)

/-! ## The command -/

/-- The arguments behind the first, from their number on. -/
def prepareArgs : ℕ → List String → Except String (List String)
  | _, [] => .ok []
  | i, arg :: args => do
    let arg ← allocCstr arg s!"argv[{i}]"
    pure (arg :: (← prepareArgs (i + 1) args))

/-- The first argument. -/
def Command.prepareArgv0 (command : Command) (h : command.args ≠ []) : Except String String :=
  match command.argv0 with
  | some argv0 => allocCstr argv0 "argv0 override"
  | none => allocCstr (command.args.head h) "argv[0]"

/-- `Command::prepare`. -/
def Command.prepare (command : Command) (h : command.args ≠ []) : Except String ExecSpec := do
  let path ← allocCstr (command.args.head h) "command path"
  let argv0 ← command.prepareArgv0 h
  let args ← prepareArgs 1 command.args.tail
  pure ⟨path, argv0 :: args⟩

def PR_MDWE_REFUSE_EXEC_GAIN : UInt64 := 1

/-- `ProcessOptions::prepare`. -/
def ProcessOptions.prepare (process : ProcessOptions) : ProcessSpec where
  pdeathsig := if process.dieWithParent then some Parent.SIGKILL else none
  verifyParentAlive := process.dieWithParent
  dumpable := process.dumpable
  newSession := process.newSession
  disableTsc := process.disableTsc
  noNewPrivs := process.noNewPrivs
  mdweFlags := if process.mdwe then some PR_MDWE_REFUSE_EXEC_GAIN else none

/-! ## The limits -/

def MIB : UInt64 := 1024 * 1024

/-- `saturating_mul`. -/
def satMul (v w : UInt64) : UInt64 :=
  if v.toNat * w.toNat < 2 ^ 64 then v * w else 0xFFFFFFFFFFFFFFFF

def RLIMIT_CPU : CInt := 0
def RLIMIT_FSIZE : CInt := 1
def RLIMIT_STACK : CInt := 3
def RLIMIT_CORE : CInt := 4
def RLIMIT_NPROC : CInt := 6
def RLIMIT_NOFILE : CInt := 7
def RLIMIT_AS : CInt := 9

def makeRlimit (resource : CInt) (value : UInt64) : RlimitEntry := ⟨resource, value, value⟩

/-- The limits, each with its resource and the value in the resource's unit. -/
def ResourceLimits.values (limits : ResourceLimits) : List (CInt × Option UInt64) :=
  [(RLIMIT_NOFILE, limits.nofile), (RLIMIT_NPROC, limits.nproc),
    (RLIMIT_FSIZE, limits.fsizeMb.map (satMul · MIB)),
    (RLIMIT_STACK, limits.stackMb.map (satMul · MIB)),
    (RLIMIT_AS, limits.asMb.map (satMul · MIB)),
    (RLIMIT_CORE, limits.coreMb.map (satMul · MIB)), (RLIMIT_CPU, limits.cpuSeconds)]

/-- `ResourceLimits::prepare`. -/
def ResourceLimits.prepare (limits : ResourceLimits) : RlimitSpec :=
  ⟨limits.values.filterMap fun entry => entry.2.map (makeRlimit entry.1)⟩

/-! ## The sandbox -/

def SECCOMP_FILTER_FLAG_TSYNC : UInt32 := 1

/-- `prepare_seccomp`. The kernel reads as many instructions as the length says, which has 16
bits. -/
def prepareSeccomp (program : List SockFilter) : SeccompSpec :=
  ⟨program.take program.length.toUInt16.toNat, SECCOMP_FILTER_FLAG_TSYNC⟩

/-- What is read of the host: the sources of bind mounts and the environment. -/
structure Host where
  sources : Sources
  environ : Option (List CStr)

variable {C : Type} [Pnut.Sandbox.Capability C]

/-- The hostname, of which the sandbox needs the namespace. -/
def Namespaces.prepareHostname (ns : Namespaces) : Except String (Option String) :=
  match ns.hostname with
  | some hostname => if ns.uts then some <$> allocCstr hostname "hostname" else pure none
  | none => pure none

/-- The mounts, if there are any. -/
def prepareMounts (sources : Sources) (mounts : Pnut.Sandbox.Table) :
    Except String (Option Child.MountPlan) :=
  if mounts.isEmpty then pure none else some <$> Pnut.Sandbox.prepareTable sources mounts

/-- `Sandbox::prepare`. -/
def Sandbox.prepare (sandbox : Sandbox C) (host : Host) : Except String ChildSpec := do
  let exec ← sandbox.command.prepare sandbox.args_ne_nil
  let process := sandbox.process.prepare
  let cwd ← allocCstr sandbox.command.cwd "working directory"
  let hostname ← sandbox.namespaces.prepareHostname
  let env ← sandbox.env.mapM (·.prepare host.environ)
  let rlimits := sandbox.rlimits.map (·.prepare)
  let mounts ← prepareMounts host.sources sandbox.mounts
  let landlock ← sandbox.landlock.mapM (·.prepare)
  let caps := sandbox.capabilities.map (·.prepare)
  let fds := (sandbox.fd.map (·.prepare)).getD default
  let seccomp := sandbox.seccompProgram.map prepareSeccomp
  pure
    { syncFd := none
      statusFd := none
      completion := none
      process := process
      mounts := mounts
      hostname := hostname
      bringUpLoopback := sandbox.namespaces.net
      env := env
      rlimits := rlimits
      landlock := landlock
      caps := caps
      fds := fds
      seccomp := seccomp
      cwd := some cwd
      exec := exec }

end Pnut.Config
