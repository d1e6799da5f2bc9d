import Mathlib.Tactic
import Pnut.Lib.Bpf

/-!
# The inputs of the child runtime

What the parent hands to the child before `execve`, and the record in which the child says which
stage of its setup failed.
-/

namespace Pnut.Child

/-- `libc::c_int`. A descriptor is one, and so is an errno. -/
abbrev CInt := Int32

abbrev Errno := CInt

def ENOENT : Errno := 2
def EACCES : Errno := 13
def EINVAL : Errno := 22
def ENOSPC : Errno := 28
def EPIPE : Errno := 32
def EOPNOTSUPP : Errno := 95

/-! ## Failures -/

/-- The stages of the child's setup. -/
inductive Stage where
  | parentDeathSignal | parentCheck | syncWait | dumpable | mount | hostname | network | rlimit
  | landlock | env | capabilities | setsid | fd | tsc | noNewPrivs | mdwe | seccomp | cwd | exec
  | completion
  deriving DecidableEq, Repr

/-- `stage as u16`. -/
def Stage.toU16 : Stage → UInt16
  | .parentDeathSignal => 1
  | .parentCheck => 2
  | .syncWait => 3
  | .dumpable => 4
  | .mount => 5
  | .hostname => 6
  | .network => 7
  | .rlimit => 8
  | .landlock => 9
  | .env => 10
  | .capabilities => 11
  | .setsid => 12
  | .fd => 13
  | .tsc => 14
  | .noNewPrivs => 15
  | .mdwe => 16
  | .seccomp => 17
  | .cwd => 18
  | .exec => 19
  | .completion => 20

/-- `Stage::from_u16`. -/
def Stage.fromU16 (v : UInt16) : Option Stage :=
  match v.toNat with
  | 1 => some .parentDeathSignal
  | 2 => some .parentCheck
  | 3 => some .syncWait
  | 4 => some .dumpable
  | 5 => some .mount
  | 6 => some .hostname
  | 7 => some .network
  | 8 => some .rlimit
  | 9 => some .landlock
  | 10 => some .env
  | 11 => some .capabilities
  | 12 => some .setsid
  | 13 => some .fd
  | 14 => some .tsc
  | 15 => some .noNewPrivs
  | 16 => some .mdwe
  | 17 => some .seccomp
  | 18 => some .cwd
  | 19 => some .exec
  | 20 => some .completion
  | _ => none

theorem Stage.fromU16_toU16 (stage : Stage) : Stage.fromU16 stage.toU16 = some stage := by
  rcases stage <;> rfl

/-- The record of a fatal failure. -/
structure ChildFailure where
  version : UInt16
  stage : UInt16
  errno : CInt
  detail : CInt
  exitCode : CInt
  deriving DecidableEq, Repr

def ChildFailure.VERSION : UInt16 := 1

def ChildFailure.new (stage : Stage) (errno detail exitCode : CInt) : ChildFailure :=
  ⟨ChildFailure.VERSION, stage.toU16, errno, detail, exitCode⟩

/-! ## Completion evidence -/

def COMPLETE_MOUNT_PIVOT : UInt32 := (1 : UInt32) <<< 0
def COMPLETE_RLIMITS : UInt32 := (1 : UInt32) <<< 1
def COMPLETE_CAPABILITIES : UInt32 := (1 : UInt32) <<< 2
def COMPLETE_FD_CLOSURE : UInt32 := (1 : UInt32) <<< 3
def COMPLETE_NO_NEW_PRIVS : UInt32 := (1 : UInt32) <<< 4
def COMPLETE_SECCOMP : UInt32 := (1 : UInt32) <<< 5

def COMPLETE_STAGE_MASK : UInt32 :=
  COMPLETE_MOUNT_PIVOT ||| COMPLETE_RLIMITS ||| COMPLETE_CAPABILITIES ||| COMPLETE_FD_CLOSURE |||
    COMPLETE_NO_NEW_PRIVS ||| COMPLETE_SECCOMP

/-- Where the completion evidence goes, and the binding it carries. -/
structure CompletionSink where
  binding : Vector UInt8 32
  fd : CInt

/-! ## The spec -/

/-- One action on the descriptors. -/
inductive FdAction where
  | dup2 (src dst : CInt)
  | close (fd : CInt)
  deriving DecidableEq, Repr

structure ProcessSpec where
  pdeathsig : Option CInt
  verifyParentAlive : Bool
  dumpable : Bool
  newSession : Bool
  disableTsc : Bool
  noNewPrivs : Bool
  mdweFlags : Option UInt64

inductive BindMountSource where
  | path (path : String)
  | prepared (fd : CInt)

inductive ProcSubset where
  | pid

inductive HidePid where
  | visible | hidden | invisible

inductive MountEntry where
  | bind (source : BindMountSource) (dstRel : String) (srcIsDir readOnly : Bool)
  | tmpfs (dstRel : String) (readOnly : Bool) (sizeBytes : Option UInt64) (mode : Option UInt32)
  | proc (dstRel : String) (subset : Option ProcSubset) (hidepid : Option HidePid)
  | mqueue (dstRel : String)
  | file (dstRel : String) (content : List UInt8) (readOnly : Bool)

structure MountPlan where
  entries : List MountEntry

structure ExecSpec where
  path : String
  argv : List String

/-- `CStr`: the bytes before the terminating NUL. -/
structure CStr where
  bytes : List UInt8
  nul_notMem : 0 ∉ bytes

structure EnvBinding where
  key : CStr
  value : CStr

/-- A pointer in `envp`: to an entry of the host's environment, or to bytes of the storage. -/
inductive EnvPtr where
  | null
  | host (idx : ℕ)
  | storage (offset : ℕ)
  deriving DecidableEq, Repr

/-- The room for the pointers and the bytes of the environment, and what is in it before. -/
structure EnvStorage where
  envp : List EnvPtr
  bytes : List UInt8

structure EnvSpec where
  clear : Bool
  keep : List CStr
  set : List EnvBinding
  storage : EnvStorage

structure FdSpec where
  actions : List FdAction
  keep : List CInt
  closeFds : Bool

/-- `FdSpec::default`. -/
instance : Inhabited FdSpec := ⟨[], [], true⟩

structure RlimitEntry where
  resource : CInt
  rlimCur : UInt64
  rlimMax : UInt64

structure RlimitSpec where
  limits : List RlimitEntry

structure LandlockRulesetAttr where
  handledAccessFs : UInt64
  handledAccessNet : UInt64

structure LandlockPathRule where
  path : String
  allowedAccess : UInt64

structure LandlockNetRule where
  port : UInt16
  allowedAccess : UInt64

structure LandlockSpec where
  minAbi : UInt32
  ruleset : LandlockRulesetAttr
  pathRules : List LandlockPathRule
  netRules : List LandlockNetRule

structure CapsSpec where
  effective : Vector UInt32 2
  permitted : Vector UInt32 2
  inheritable : Vector UInt32 2
  boundingDrop : List UInt32
  clearAmbient : Bool

structure SeccompSpec where
  program : List Bpf.SockFilter
  flags : UInt32

/-- One invocation of the child runtime. -/
structure ChildSpec where
  syncFd : Option CInt
  statusFd : Option CInt
  completion : Option CompletionSink
  process : ProcessSpec
  mounts : Option MountPlan
  hostname : Option String
  bringUpLoopback : Bool
  env : Option EnvSpec
  rlimits : Option RlimitSpec
  landlock : Option LandlockSpec
  caps : Option CapsSpec
  fds : FdSpec
  seccomp : Option SeccompSpec
  cwd : Option String
  exec : ExecSpec

end Pnut.Child
