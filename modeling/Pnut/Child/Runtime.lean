import Pnut.Child.Spec
import Pnut.Lib.Program

/-!
# The child runtime

`run`, as a program over the primitives it calls. A primitive that fails hands back its errno; the
runtime chooses none of the outcomes.
-/

namespace Pnut.Child

open Program (Prog)

/-! ## Primitives -/

inductive Prctl where
  | dumpable | noNewPrivs | mdwe | tsc | parentDeathSignal
  deriving DecidableEq, Repr

def PR_TSC_SIGSEGV : UInt64 := 2

/-- The environment handed to `execve`: the one built in the spec's storage, or the process's. -/
inductive Envp where
  | storage
  | environ
  deriving DecidableEq, Repr

/-- The buffer of a `write_all`. -/
inductive Payload where
  | failure (record : ChildFailure)
  | message (text : String)
  | completion (binding : Vector UInt8 32) (mask : UInt32)
  deriving DecidableEq

/-- `MountError`: the errno, and where in the plan it came up. -/
structure MountError where
  errno : Errno
  detail : CInt

inductive Prim where
  | prctl (option : Prctl) (arg2 : UInt64)
  | getppid
  | readByte (fd : CInt)
  | close (fd : CInt)
  | mountSetup (plan : MountPlan)
  | sethostname (hostname : String)
  | bringUpLoopback
  | rlimitApply (spec : RlimitSpec)
  | landlockApply (spec : LandlockSpec)
  | envPrepare (spec : EnvSpec)
  | capsApply (spec : CapsSpec)
  | setsid
  | dup2 (src dst : CInt)
  | closeRange (first last : UInt32)
  | installSeccomp (spec : SeccompSpec)
  | chdir (path : String)
  | writeAll (fd : CInt) (buf : Payload)
  | execve (exec : ExecSpec) (envp : Envp)
  | exit (code : CInt)

/-- What a primitive hands back. `execve` comes back only when it failed, `_exit` never does. -/
abbrev Prim.Out : Prim → Type
  | .getppid => CInt
  | .mountSetup _ => Except MountError Unit
  | .execve _ _ => Errno
  | .exit _ => Empty
  | _ => Except Errno Unit

/-- The primitives that may never come back. -/
def Prim.Final : Prim → Prop
  | .execve _ _ => True
  | .exit _ => True
  | _ => False

abbrev Runtime := Prog Prim Prim.Out

/-- A step of the child that may fail with an errno. -/
abbrev Fallible := ExceptT Errno Runtime

def prctlSet (option : Prctl) (arg2 : UInt64) : Fallible Unit :=
  Prog.perform (Prim.prctl option arg2)

def getppid : Runtime CInt := Prog.perform Prim.getppid

def readByte (fd : CInt) : Fallible Unit := Prog.perform (Prim.readByte fd)

def writeAll (fd : CInt) (buf : Payload) : Fallible Unit := Prog.perform (Prim.writeAll fd buf)

def execve (exec : ExecSpec) (envp : Envp) : Runtime Errno := Prog.perform (Prim.execve exec envp)

def exitImmediately {α : Type} (code : CInt) : Runtime α :=
  .call (Prim.exit code) fun out => nomatch out

def runWhen (c : Bool) (x : Runtime Unit) : Runtime Unit := if c then x else pure ()

/-! ## Descriptors -/

namespace Fd

def close (fd : CInt) : Fallible Unit := Prog.perform (Prim.close fd)

def dup2 (src dst : CInt) : Fallible Unit := Prog.perform (Prim.dup2 src dst)

/-- `apply_actions`. -/
def applyActions : List FdAction → Fallible Unit
  | [] => pure ()
  | .dup2 src dst :: rest =>
    if src ≠ dst then do
      dup2 src dst
      applyActions rest
    else applyActions rest
  | .close fd :: rest => do
    close fd
    applyActions rest

/-- `u32::MAX`. -/
def MAX : UInt32 := 0xFFFFFFFF

/-- `next_keep_fd`: the first of `keepSorted` from the cursor on, or one of `extraKeep` that is
smaller. -/
def nextKeepFd (cursor : UInt32) (keepSorted extraKeep : List CInt) : UInt32 :=
  extraKeep.foldl (fun next fd =>
    if fd < 3 then next
    else if cursor ≤ fd.toUInt32 ∧ fd.toUInt32 < next then fd.toUInt32 else next)
    (((keepSorted.map Int32.toUInt32).find? (cursor ≤ ·)).getD MAX)

def closeRange (first last : UInt32) : Fallible Unit :=
  if last < first then pure () else Prog.perform (Prim.closeRange first last)

/-- `saturating_add(1)`. -/
def succSat (n : UInt32) : UInt32 := if n = MAX then MAX else n + 1

theorem le_nextKeepFd (cursor : UInt32) (keepSorted extraKeep : List CInt) :
    cursor ≤ nextKeepFd cursor keepSorted extraKeep := by
  have hstart : cursor ≤ ((keepSorted.map Int32.toUInt32).find? (cursor ≤ ·)).getD MAX := by
    cases hfind : (keepSorted.map Int32.toUInt32).find? (cursor ≤ ·) with
    | none =>
      have := cursor.toNat_lt
      simp only [Option.getD_none, MAX, UInt32.le_iff_toNat_le]
      show cursor.toNat ≤ 4294967295
      omega
    | some fd => simpa using List.find?_some hfind
  unfold nextKeepFd
  generalize ((keepSorted.map Int32.toUInt32).find? (cursor ≤ ·)).getD MAX = next at hstart
  induction extraKeep generalizing next with
  | nil => exact hstart
  | cons fd rest ih =>
    refine ih _ ?_
    beta_reduce
    split_ifs with h₁ h₂
    · exact hstart
    · exact h₂.1
    · exact hstart

/-- The cursor of the loop below moves on. -/
theorem lt_succSat_nextKeepFd {cursor : UInt32} {keepSorted extraKeep : List CInt}
    (hmax : nextKeepFd cursor keepSorted extraKeep ≠ MAX) :
    cursor < succSat (nextKeepFd cursor keepSorted extraKeep) := by
  have hle := le_nextKeepFd cursor keepSorted extraKeep
  have hlt := (nextKeepFd cursor keepSorted extraKeep).toNat_lt
  have hne : (nextKeepFd cursor keepSorted extraKeep).toNat ≠ 4294967295 := by
    intro h
    exact hmax (UInt32.toNat_inj.1 h)
  rw [UInt32.le_iff_toNat_le] at hle
  rw [succSat, if_neg hmax, UInt32.lt_iff_toNat_lt, UInt32.toNat_add, UInt32.toNat_one]
  omega

/-- The loop of `close_other_fds`, at one position of its cursor. -/
def closeFrom (keepSorted extraKeep : List CInt) (cursor : UInt32) : Fallible Unit :=
  let nextKeep := nextKeepFd cursor keepSorted extraKeep
  if nextKeep = MAX then closeRange cursor MAX
  else if cursor < nextKeep then do
    closeRange cursor (nextKeep - 1)
    closeFrom keepSorted extraKeep (succSat nextKeep)
  else closeFrom keepSorted extraKeep (succSat nextKeep)
termination_by 2 ^ 32 - cursor.toNat
decreasing_by
  all_goals
    rename_i hmax _
    have hlt := UInt32.lt_iff_toNat_lt.1 (lt_succSat_nextKeepFd hmax)
    have := (succSat (nextKeepFd cursor keepSorted extraKeep)).toNat_lt
    omega

/-- `close_other_fds`. -/
def closeOtherFds (keepSorted extraKeep : List CInt) : Fallible Unit :=
  closeFrom keepSorted extraKeep 3

end Fd

/-! ## Reports -/

structure Reporter where
  statusFd : Option CInt

/-- `write_stderr`. -/
def writeStderr (text : String) : Runtime Unit := do
  let _ ← (writeAll 2 (.message text)).run
  pure ()

/-- The line that stands in for a record that could not be sent. -/
def Stage.message : Stage → String
  | .parentDeathSignal => "pnut: failed to set PR_SET_PDEATHSIG\n"
  | .parentCheck => "pnut: parent already exited\n"
  | .syncWait => "pnut: parent failed during setup\n"
  | .dumpable => "pnut: failed to set PR_SET_DUMPABLE\n"
  | .mount => "pnut: mount setup failed\n"
  | .hostname => "pnut: failed to set hostname\n"
  | .network => "pnut: loopback setup failed\n"
  | .rlimit => "pnut: rlimits setup failed\n"
  | .landlock => "pnut: landlock setup failed\n"
  | .env => "pnut: environment setup failed\n"
  | .capabilities => "pnut: capability setup failed\n"
  | .setsid => "pnut: setsid failed\n"
  | .fd => "pnut: fd setup failed\n"
  | .tsc => "pnut: failed to set TSC\n"
  | .noNewPrivs => "pnut: failed to set NO_NEW_PRIVS\n"
  | .mdwe => "pnut: failed to set PR_SET_MDWE\n"
  | .seccomp => "pnut: seccomp filter installation failed\n"
  | .cwd => "pnut: failed to set working directory\n"
  | .exec => "pnut: exec failed\n"
  | .completion => "pnut: completion evidence failed\n"

namespace Reporter

variable (reporter : Reporter)

/-- `send_failure`: whether the record was sent. -/
def sendFailure (failure : ChildFailure) : Runtime Bool :=
  match reporter.statusFd with
  | some fd => do
    let sent ← (writeAll fd (.failure failure)).run
    pure sent.toBool
  | none => pure false

/-- `send_and_stderr`. -/
def sendAndStderr (failure : ChildFailure) (stage : Stage) : Runtime Unit := do
  if ← reporter.sendFailure failure then pure () else writeStderr stage.message

def reportErrno (stage : Stage) (err : Errno) (detail exitCode : CInt) : Runtime Unit :=
  reporter.sendAndStderr (.new stage err detail exitCode) stage

def reportLogic (stage : Stage) (detail exitCode : CInt) : Runtime Unit :=
  reporter.sendAndStderr (.new stage 0 detail exitCode) stage

/-- The lines that stand in for the record of a failed `execve`. -/
def execMessages (err : Errno) (path : String) : List String :=
  [if err = ENOENT then "pnut: command not found: "
    else if err = EACCES then "pnut: permission denied: "
    else "pnut: exec failed: ",
    path, "\n"]

def reportExecErrno (err : Errno) (exitCode : CInt) (path : String) : Runtime Unit := do
  if ← reporter.sendFailure (.new .exec err 0 exitCode) then pure ()
  else (execMessages err path).forM writeStderr

end Reporter

/-! ## The run -/

def EXIT_SETUP_FAILED : CInt := 126
def EXIT_COMMAND_NOT_FOUND : CInt := 127

/-- `if let Err(err) = step`: report the errno and exit. -/
def Reporter.check (reporter : Reporter) (stage : Stage) (detail : CInt) (step : Fallible Unit) :
    Runtime Unit := do
  match ← step.run with
  | .ok () => pure ()
  | .error err =>
    reporter.reportErrno stage err detail EXIT_SETUP_FAILED
    exitImmediately EXIT_SETUP_FAILED

/-- The same for the mount stage, whose failure says where in the plan it came up. -/
def Reporter.checkMount (reporter : Reporter) (step : Runtime (Except MountError Unit)) :
    Runtime Unit := do
  match ← step with
  | .ok () => pure ()
  | .error err =>
    reporter.reportErrno .mount err.errno err.detail EXIT_SETUP_FAILED
    exitImmediately EXIT_SETUP_FAILED

/-- Report a failure that has no errno and exit, unless the condition holds. -/
def Reporter.require (reporter : Reporter) (stage : Stage) (detail : CInt) (c : Bool) :
    Runtime Unit :=
  if c then pure ()
  else do
    reporter.reportLogic stage detail EXIT_SETUP_FAILED
    exitImmediately EXIT_SETUP_FAILED

/-- The check made up front: completion is only taken on when all it stands for is configured. -/
def ChildSpec.completionIsValid (spec : ChildSpec) : Bool :=
  match spec.completion with
  | none => true
  | some sink =>
    let statusFd := spec.statusFd
    0 ≤ sink.fd
      && statusFd.any (fun fd => 0 ≤ fd && some fd != spec.syncFd)
      && some sink.fd != statusFd
      && some sink.fd != spec.syncFd
      && spec.mounts.isSome
      && spec.rlimits.isSome
      && spec.caps.isSome
      && spec.fds.closeFds
      && spec.process.noNewPrivs
      && spec.seccomp.isSome
      && spec.fds.actions.all fun
        | .close fd => fd != sink.fd && some fd != statusFd
        | .dup2 src dst =>
          src != sink.fd && dst != sink.fd && some src != statusFd && some dst != statusFd

/-- `completion::emit`. -/
def emit (sink : CompletionSink) (mask : UInt32) : Fallible Unit := do
  writeAll sink.fd (.completion sink.binding mask)
  Fd.close sink.fd

/-- The descriptors that are kept open next to the mapped ones. -/
def ChildSpec.extraKeep (spec : ChildSpec) : List CInt :=
  [spec.statusFd.getD (-1), (spec.completion.map (·.fd)).getD (-1)]

/-- Whether the target has the time stamp counter the `disable_tsc` stage turns off. -/
inductive Target where
  | x86
  | other
  deriving DecidableEq

def tscResult : Target → Fallible Unit
  | .x86 => prctlSet .tsc PR_TSC_SIGSEGV
  | .other => throw EOPNOTSUPP

/-- `pnut_child::run`. It never returns. -/
def run (target : Target) (spec : ChildSpec) : Runtime Empty := do
  let reporter : Reporter := ⟨spec.statusFd⟩
  reporter.require .completion 1 spec.completionIsValid
  let completedStages : UInt32 := 0
  spec.process.pdeathsig.forM fun sig => do
    reporter.check .parentDeathSignal 0 (prctlSet .parentDeathSignal sig.toInt64.toUInt64)
  runWhen spec.process.verifyParentAlive do
    let ppid ← getppid
    reporter.require .parentCheck 1 (ppid != 1)
  spec.syncFd.forM fun syncFd => do
    reporter.check .syncWait 0 do
      readByte syncFd
      Fd.close syncFd
  reporter.check .dumpable 0 (prctlSet .dumpable (if spec.process.dumpable then 1 else 0))
  -- before any path is looked up: the later stages and the exec see the new root
  spec.mounts.forM fun mounts => do
    reporter.checkMount (Prog.perform (Prim.mountSetup mounts))
  let completedStages :=
    if spec.mounts.isSome then completedStages ||| COMPLETE_MOUNT_PIVOT else completedStages
  spec.hostname.forM fun hostname => do
    reporter.check .hostname 0 (Prog.perform (Prim.sethostname hostname))
  runWhen spec.bringUpLoopback do
    reporter.check .network 0 (Prog.perform Prim.bringUpLoopback)
  spec.rlimits.forM fun rlimits => do
    reporter.check .rlimit 0 (Prog.perform (Prim.rlimitApply rlimits))
  let completedStages :=
    if spec.rlimits.isSome then completedStages ||| COMPLETE_RLIMITS else completedStages
  spec.landlock.forM fun landlockSpec => do
    reporter.check .landlock 0 (Prog.perform (Prim.landlockApply landlockSpec))
  spec.env.forM fun envSpec => do
    reporter.check .env 0 (Prog.perform (Prim.envPrepare envSpec))
  let envp : Envp := if spec.env.isSome then .storage else .environ
  spec.caps.forM fun capsSpec => do
    reporter.check .capabilities 0 (Prog.perform (Prim.capsApply capsSpec))
  let completedStages :=
    if spec.caps.isSome then completedStages ||| COMPLETE_CAPABILITIES else completedStages
  runWhen spec.process.newSession do
    reporter.check .setsid 0 (Prog.perform Prim.setsid)
  reporter.check .fd 0 (Fd.applyActions spec.fds.actions)
  runWhen spec.fds.closeFds do
    reporter.check .fd 1 (Fd.closeOtherFds spec.fds.keep spec.extraKeep)
  let completedStages :=
    if spec.fds.closeFds then completedStages ||| COMPLETE_FD_CLOSURE else completedStages
  runWhen spec.process.disableTsc do
    reporter.check .tsc 0 (tscResult target)
  runWhen spec.process.noNewPrivs do
    reporter.check .noNewPrivs 0 (prctlSet .noNewPrivs 1)
  let completedStages :=
    if spec.process.noNewPrivs then completedStages ||| COMPLETE_NO_NEW_PRIVS else completedStages
  spec.process.mdweFlags.forM fun mdweFlags => do
    reporter.check .mdwe 0 (prctlSet .mdwe mdweFlags)
  spec.seccomp.forM fun seccompSpec => do
    reporter.check .seccomp 0 (Prog.perform (Prim.installSeccomp seccompSpec))
  let completedStages :=
    if spec.seccomp.isSome then completedStages ||| COMPLETE_SECCOMP else completedStages
  spec.cwd.forM fun cwd => do
    reporter.check .cwd 0 (Prog.perform (Prim.chdir cwd))
  -- completion says that the exec boundary was reached, not that the exec succeeded
  spec.completion.forM fun sink => do
    reporter.require .completion 2 (completedStages == COMPLETE_STAGE_MASK)
    reporter.check .completion 0 (emit sink completedStages)
  let err ← execve spec.exec envp
  if err = ENOENT then do
    reporter.reportExecErrno err EXIT_COMMAND_NOT_FOUND spec.exec.path
    exitImmediately EXIT_COMMAND_NOT_FOUND
  else do
    reporter.reportExecErrno err EXIT_SETUP_FAILED spec.exec.path
    exitImmediately EXIT_SETUP_FAILED

end Pnut.Child
