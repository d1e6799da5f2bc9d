import Pnut.Child.Spec
import Pnut.Lib.Loop

/-!
# The parent

`run_once_mode`, as a program that loops over the system calls of the parent: it creates the child,
writes its id maps, lets it go on, and supervises it until it ends. The `drop`s that the source
writes out are calls; what goes out of scope is closed without one, and what is printed about a
failed `pidfd_send_signal` is left out. The texts of errnos are a parameter.
-/

namespace Pnut.Parent

open Program (Prog Loop)
open Child (CInt Errno ChildFailure ChildSpec)

/-! ## Configuration -/

/-- The namespaces that a sandbox creates. -/
structure Namespaces where
  user : Bool
  pid : Bool
  mount : Bool
  uts : Bool
  ipc : Bool
  net : Bool
  cgroup : Bool
  time : Bool

structure IdMap where
  inside : UInt32
  outside : UInt32
  count : UInt32

/-- What the parent reads of a sandbox. -/
structure Sandbox where
  args : List String
  forwardSignals : Bool
  namespaces : Namespaces
  uidMap : IdMap
  gidMap : IdMap

/-- The descriptions of errnos, as `nix` and as the standard library give them. -/
structure Texts where
  nix : Errno → String
  os : Errno → String

/-! ## Errors -/

/-- `error::Stage`. -/
inductive Stage where
  | clone
  | idMap
  deriving DecidableEq, Repr

inductive Error where
  | setup (stage : Stage) (context : String) (source : Errno)
  | childSetup (stage : Child.Stage) (errno detail exitCode : CInt) (message : String)
  | other (message : String)
  | build (message : String)
  deriving DecidableEq, Repr

def EINTR : Errno := 4
def EBADF : Errno := 9
def ECHILD : Errno := 10
def EINVAL : Errno := 22

/-! ## Signals -/

def SIGHUP : CInt := 1
def SIGINT : CInt := 2
def SIGQUIT : CInt := 3
def SIGKILL : CInt := 9
def SIGUSR1 : CInt := 10
def SIGUSR2 : CInt := 12
def SIGTERM : CInt := 15
def SIGCHLD : CInt := 17

abbrev SigSet := Finset CInt

def FORWARDED_SIGNALS : List CInt := [SIGTERM, SIGINT, SIGHUP, SIGQUIT, SIGUSR1, SIGUSR2]

def supervisionSignalMask : SigSet := insert SIGCHLD FORWARDED_SIGNALS.toFinset

/-- The signals of `nix`'s `Signal`. -/
abbrev Signal := {sig : CInt // 1 ≤ sig ∧ sig ≤ 31}

/-- What `waitpid` reports. -/
inductive WaitStatus where
  | exited (code : CInt)
  | signaled (signal : Signal)
  | stillAlive
  deriving DecidableEq

/-! ## System calls -/

inductive Op where
  | prepare
  | pipe
  | pipe2Cloexec
  | threadBlock (mask : SigSet)
  | threadUnblock (mask : SigSet)
  | clone3 (flags : UInt64)
  | enterChild (spec : ChildSpec)
  | close (fd : CInt)
  | writeFile (path content : String)
  | write (fd : CInt)
  | waitpid (pid : CInt) (nohang : Bool)
  | signalfd (mask : SigSet)
  | poll (pidfd sfd : CInt)
  | readSignal (sfd : CInt)
  | pidfdSendSignal (pidfd signal : CInt)
  | readStatus (fd : CInt)

/-- What a call hands back: `clone3` the pid of the child and the pidfd that it stored, or nothing
in the child; `poll` whether the pidfd is readable; `readStatus` a record, if a whole one is
there. The result of `thread_unblock` is dropped; it only fails where it is called wrongly. -/
abbrev Op.Out : Op → Type
  | .prepare => Except String ChildSpec
  | .pipe => Except Errno (CInt × CInt)
  | .pipe2Cloexec => Except Errno (CInt × CInt)
  | .threadBlock _ => Except Errno Unit
  | .threadUnblock _ => Unit
  | .clone3 _ => Except Errno (Option (CInt × CInt))
  | .enterChild _ => Empty
  | .close _ => Unit
  | .writeFile _ _ => Except Errno Unit
  | .write _ => Except Errno Unit
  | .waitpid _ _ => Except Errno WaitStatus
  | .signalfd _ => Except Errno CInt
  | .poll _ _ => Except Errno Bool
  | .readSignal _ => Except Errno (Option UInt32)
  | .pidfdSendSignal _ _ => Except Errno Unit
  | .readStatus _ => Option ChildFailure

/-- The child's side of `clone3` never comes back. -/
def Op.Final : Op → Prop
  | .enterChild _ => True
  | _ => False

abbrev Run := Prog Op Op.Out

/-- A step of the parent that may fail. -/
abbrev Step := ExceptT Error Run

/-- A call whose errno becomes an error. -/
def orElse {α : Type} (x : Run (Except Errno α)) (f : Errno → Error) : Step α := do
  match ← ExceptT.lift x with
  | .ok a => pure a
  | .error e => throw (f e)

def close (fd : CInt) : Run Unit := Prog.perform (Op.close fd)

/-! ## Supervision -/

/-- The points of `wait_for_child`: its start, its loop, and the loop that drains the signals. -/
inductive WaitPoint where
  | start
  | poll (sfd : CInt)
  | drain (sfd : CInt)

section Wait

variable (texts : Texts) (childPid pidfd : CInt) (forwardSignals : Bool)

/-- The child has ended: what the loop makes of the answer of `waitpid`. -/
def waitOutcome (sfd : CInt) : Except Errno WaitStatus → WaitPoint ⊕ Except Error CInt
  | .ok (.exited code) => .inr (.ok code)
  | .ok (.signaled signal) => .inr (.ok (128 + signal.val))
  | _ => .inl (.poll sfd)

def waitForChild : Loop Op Op.Out WaitPoint (Except Error CInt)
  | .start => do
    match ← Prog.perform (Op.signalfd supervisionSignalMask) with
    | .ok sfd => pure (.inl (.poll sfd))
    | .error e => pure (.inr (.error (.other s!"signalfd creation failed: {texts.nix e}")))
  | .poll sfd => do
    match ← Prog.perform (Op.poll pidfd sfd) with
    | .error e =>
      if e = EINTR then pure (.inl (.poll sfd))
      else pure (.inr (.error (.other s!"poll failed: {texts.nix e}")))
    | .ok true => do
      let status ← Prog.perform (Op.waitpid childPid true)
      pure (waitOutcome sfd status)
    | .ok false => pure (.inl (.drain sfd))
  | .drain sfd => do
    match ← Prog.perform (Op.readSignal sfd) with
    | .ok (some signo) =>
      if signo = SIGCHLD.toUInt32 then pure (.inl (.drain sfd))
      else do
        let _ ← Prog.perform
          (Op.pidfdSendSignal pidfd (if forwardSignals then signo.toInt32 else SIGKILL))
        pure (.inl (.drain sfd))
    | _ => pure (.inl (.poll sfd))

end Wait

/-! ## The status record -/

section Decode

variable (texts : Texts)

/-- `format_child_failure`. -/
def formatChildFailure (failure : ChildFailure) (sandbox : Sandbox) : String :=
  let errnoDesc := if failure.errno ≠ 0 then texts.os failure.errno else ""
  let commandPath := sandbox.args.head?.getD "<unknown>"
  match Child.Stage.fromU16 failure.stage with
  | none => s!"child setup failed (stage {failure.stage}): {errnoDesc}"
  | some .exec =>
    if failure.errno = Child.ENOENT then s!"command not found: {commandPath}"
    else if failure.errno = Child.EACCES then s!"permission denied: {commandPath}"
    else s!"exec failed: {errnoDesc}"
  | some .mount =>
    if 0 ≤ failure.detail then s!"mount setup failed (entry {failure.detail}): {errnoDesc}"
    else s!"mount setup failed: {errnoDesc}"
  | some .parentDeathSignal => s!"failed to set PR_SET_PDEATHSIG: {errnoDesc}"
  | some .parentCheck => "parent already exited"
  | some .syncWait => "parent failed during setup"
  | some .dumpable => s!"failed to set PR_SET_DUMPABLE: {errnoDesc}"
  | some .hostname => s!"failed to set hostname: {errnoDesc}"
  | some .network => s!"loopback setup failed: {errnoDesc}"
  | some .rlimit => s!"rlimits setup failed: {errnoDesc}"
  | some .landlock => s!"landlock setup failed: {errnoDesc}"
  | some .env => s!"environment setup failed: {errnoDesc}"
  | some .capabilities => s!"capability setup failed: {errnoDesc}"
  | some .setsid => s!"setsid failed: {errnoDesc}"
  | some .fd => s!"fd setup failed: {errnoDesc}"
  | some .tsc => s!"failed to set TSC: {errnoDesc}"
  | some .noNewPrivs => s!"failed to set NO_NEW_PRIVS: {errnoDesc}"
  | some .mdwe => s!"failed to set PR_SET_MDWE: {errnoDesc}"
  | some .seccomp => s!"seccomp filter installation failed: {errnoDesc}"
  | some .cwd => s!"failed to set working directory: {errnoDesc}"
  | some .completion => s!"completion evidence failed: {errnoDesc}"

/-- What `decode_child_failure` makes of the record that was read. -/
def decodeRecord (sandbox : Sandbox) : Option ChildFailure → Option Error
  | none => none
  | some failure =>
    if failure.version ≠ ChildFailure.VERSION then none
    else some (.childSetup ((Child.Stage.fromU16 failure.stage).getD .exec) failure.errno
      failure.detail failure.exitCode (formatChildFailure texts failure sandbox))

def decodeChildFailure (statusRead : CInt) (sandbox : Sandbox) : Run (Option Error) := do
  let record ← Prog.perform (Op.readStatus statusRead)
  pure (decodeRecord texts sandbox record)

end Decode

/-! ## The id maps -/

def IdMap.content (map : IdMap) : String := s!"{map.inside} {map.outside} {map.count}\n"

/-- `std::fs::write`, in `write_id_maps`. -/
def writeProc (path content : String) : Step Unit :=
  orElse (Prog.perform (Op.writeFile path content)) fun e =>
    .setup .idMap ("failed to write " ++ path) e

def writeIdMaps (childPid : CInt) (uidMap gidMap : IdMap) : Step Unit := do
  writeProc s!"/proc/{childPid}/setgroups" "deny"
  writeProc s!"/proc/{childPid}/uid_map" uidMap.content
  writeProc s!"/proc/{childPid}/gid_map" gidMap.content

/-! ## The child's creation -/

def CLONE_NEWTIME : UInt64 := 0x00000080
def CLONE_PIDFD : UInt64 := 0x00001000
def CLONE_NEWNS : UInt64 := 0x00020000
def CLONE_NEWCGROUP : UInt64 := 0x02000000
def CLONE_NEWUTS : UInt64 := 0x04000000
def CLONE_NEWIPC : UInt64 := 0x08000000
def CLONE_NEWUSER : UInt64 := 0x10000000
def CLONE_NEWPID : UInt64 := 0x20000000
def CLONE_NEWNET : UInt64 := 0x40000000

def cloneFlags (ns : Namespaces) : UInt64 :=
  ([(ns.user, CLONE_NEWUSER), (ns.pid, CLONE_NEWPID), (ns.mount, CLONE_NEWNS),
    (ns.uts, CLONE_NEWUTS), (ns.ipc, CLONE_NEWIPC), (ns.net, CLONE_NEWNET),
    (ns.cgroup, CLONE_NEWCGROUP), (ns.time, CLONE_NEWTIME)].filter (·.1)).foldl
    (fun flags entry => flags ||| entry.2) 0

/-- The pid and the pidfd of the child; nothing in the child. -/
def doClone3 (flags : UInt64) : Step (Option (CInt × CInt)) := do
  match ← ExceptT.lift (Prog.perform (Op.clone3 (flags ||| CLONE_PIDFD))) with
  | .error e => throw (.setup .clone "clone3 failed" e)
  | .ok none => pure none
  | .ok (some (pid, pidfd)) =>
    if pidfd < 0 then
      throw (.setup .clone "clone3 succeeded but CLONE_PIDFD did not return a valid fd" EBADF)
    else pure (some (pid, pidfd))

/-- What the parent keeps of the child. -/
structure Handle where
  pid : CInt
  pidfd : CInt
  syncWrite : CInt
  statusRead : CInt

section Once

variable (texts : Texts) (sandbox : Sandbox)

/-- `run_once_mode`, up to the parent's side of `clone3`. -/
def spawn : Step Handle := do
  let spec ← (do
    match ← ExceptT.lift (Prog.perform Op.prepare) with
    | .ok spec => pure spec
    | .error message => throw (.build message) : Step ChildSpec)
  let (syncRead, syncWrite) ←
    orElse (Prog.perform Op.pipe) (.setup .clone "pipe() failed")
  let (statusRead, statusWrite) ←
    orElse (Prog.perform Op.pipe2Cloexec) (.setup .clone "pipe2(O_CLOEXEC) failed")
  orElse (Prog.perform (Op.threadBlock supervisionSignalMask)) fun e =>
    .other s!"failed to block signals: {texts.nix e}"
  match ← doClone3 (cloneFlags sandbox.namespaces) with
  | none => do
    let _ ← ExceptT.lift (Prog.perform (Op.threadUnblock supervisionSignalMask))
    ExceptT.lift (close syncWrite)
    ExceptT.lift (close statusRead)
    let spec := { spec with syncFd := some syncRead, statusFd := some statusWrite }
    let never ← ExceptT.lift (Prog.perform (Op.enterChild spec))
    nomatch never
  | some (pid, pidfd) => do
    ExceptT.lift (close syncRead)
    ExceptT.lift (close statusWrite)
    pure ⟨pid, pidfd, syncWrite, statusRead⟩

/-- `run_parent_setup`, up to the supervision. -/
def beginSetup (child : Handle) : Step Unit := do
  match ← ExceptT.lift (writeIdMaps child.pid sandbox.uidMap sandbox.gidMap).run with
  | .error e => do
    ExceptT.lift (close child.syncWrite)
    let _ ← ExceptT.lift (Prog.perform (Op.waitpid child.pid false))
    throw e
  | .ok () => do
    orElse (Prog.perform (Op.write child.syncWrite))
      (.setup .clone "failed to signal child via sync pipe")
    ExceptT.lift (close child.syncWrite)

/-- `run_parent_setup`, behind the supervision. -/
def endSetup (child : Handle) : Except Error CInt → Run (Except Error CInt)
  | .error e => pure (.error e)
  | .ok exitCode => do
    match ← decodeChildFailure texts child.statusRead sandbox with
    | some err => pure (.error err)
    | none => pure (.ok exitCode)

/-- The mask is taken back, and the result returned. -/
def finish (result : Except Error CInt) : Run (Except Error CInt) := do
  let _ ← Prog.perform (Op.threadUnblock supervisionSignalMask)
  pure result

/-- The points of `run_once_mode`: its start, and those of the supervision. -/
inductive Point where
  | start
  | wait (child : Handle) (point : WaitPoint)

def runOnceMode : Loop Op Op.Out Point (Except Error CInt)
  | .start => do
    match ← (spawn texts sandbox).run with
    | .error e => pure (.inr (.error e))
    | .ok child =>
      match ← (beginSetup sandbox child).run with
      | .error e => do
        let result ← finish (.error e)
        pure (.inr result)
      | .ok () => pure (.inl (.wait child .start))
  | .wait child point => do
    match ← waitForChild texts child.pid child.pidfd sandbox.forwardSignals point with
    | .inl point => pure (.inl (.wait child point))
    | .inr result => do
      let result ← endSetup texts sandbox child result
      let result ← finish result
      pure (.inr result)

end Once

end Pnut.Parent
