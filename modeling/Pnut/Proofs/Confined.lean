import Pnut.Proofs.Added
import Pnut.Proofs.Capped
import Pnut.Proofs.Cleanup
import Pnut.Proofs.FailClosed
import Pnut.Proofs.Handshake
import Pnut.Proofs.Prepared
import Pnut.Sandbox.Standalone

/-!
# The command runs confined

From the builder to `execve`, in either mode and whatever the kernel answers: the process that makes
the call has been set up exactly as the builder says, and what changed the hostname, the mounts and
the network on the way were calls of a process in namespaces of its own.
-/

namespace Pnut.Process

open Program Prog
open Child (CInt Errno ChildSpec MountPlan LandlockSpec EnvSpec CapsSpec SeccompSpec RlimitSpec
  ExecSpec Envp Prctl Prim Target Runtime SetupCheck Failure)
open Parent (Error Handle Point Texts IdMap cloneFlags)
open Config (Sandbox Host SandboxBuilder)

/-! ## The state of a process -/

/-- What the stages of the child have set. -/
@[ext] structure Attrs where
  prctls : Prctl → Option UInt64
  mounts : Option MountPlan
  hostname : Option String
  loopback : Bool
  rlimits : CInt → Option (UInt64 × UInt64)
  landlock : Option LandlockSpec
  env : Option EnvSpec
  caps : Option CapsSpec
  session : Bool
  dups : List (CInt × CInt)
  closed : List (UInt32 × UInt32)
  filters : List SeccompSpec
  cwd : Option String

/-- A process as it was started. -/
def Attrs.init : Attrs :=
  ⟨fun _ => none, none, none, false, fun _ => none, none, none, none, false, [], [], [], none⟩

/-- The limits that are set one after the other. -/
def setLimits (limits : CInt → Option (UInt64 × UInt64)) (spec : RlimitSpec) :
    CInt → Option (UInt64 × UInt64) :=
  spec.limits.foldl (fun limits entry =>
    Function.update limits entry.resource (some (entry.rlimCur, entry.rlimMax))) limits

/-- What a primitive changes when it succeeds. -/
def Attrs.pass (a : Attrs) : Prim → Attrs
  | .prctl option arg2 => { a with prctls := Function.update a.prctls option (some arg2) }
  | .mountSetup plan => { a with mounts := some plan }
  | .sethostname hostname => { a with hostname := some hostname }
  | .bringUpLoopback => { a with loopback := true }
  | .rlimitApply spec => { a with rlimits := setLimits a.rlimits spec }
  | .landlockApply spec => { a with landlock := some spec }
  | .envPrepare spec => { a with env := some spec }
  | .capsApply spec => { a with caps := some spec }
  | .setsid => { a with session := true }
  | .dup2 src dst => { a with dups := a.dups ++ [(src, dst)] }
  | .closeRange first last => { a with closed := a.closed ++ [(first, last)] }
  | .installSeccomp spec => { a with filters := a.filters ++ [spec] }
  | .chdir path => { a with cwd := some path }
  | _ => a

structure State where
  /-- The namespaces that were made for the process, as the flags say. -/
  created : UInt64
  /-- The pipes that were made, by the ends to read and to write. -/
  pipes : List (CInt × CInt)
  /-- The files that it wrote. -/
  files : List (String × String)
  attrs : Attrs

def State.init : State := ⟨0, [], [], .init⟩

/-- The process is in a namespace of its own. -/
def State.Owns (w : State) (flag : UInt64) : Prop := w.created &&& flag ≠ 0

/-- Where the child reports a failure: the end of the second pipe that is written. Without pipes
there is none. -/
def State.statusFd (w : State) : CInt := w.pipes[1]?.elim (-1) (·.2)

/-- The primitive came back with a failure. -/
def Fails : (prim : Prim) → prim.Out → Prop
  | .prctl _ _, .error _ => True
  | .readByte _, .error _ => True
  | .close _, .error _ => True
  | .mountSetup _, .error _ => True
  | .sethostname _, .error _ => True
  | .bringUpLoopback, .error _ => True
  | .rlimitApply _, .error _ => True
  | .landlockApply _, .error _ => True
  | .envPrepare _, .error _ => True
  | .capsApply _, .error _ => True
  | .setsid, .error _ => True
  | .dup2 _ _, .error _ => True
  | .closeRange _ _, .error _ => True
  | .installSeccomp _, .error _ => True
  | .chdir _, .error _ => True
  | .writeAll _ _, .error _ => True
  | _, _ => False

/-! ## What the builder says -/

section Confined

variable {C : Type} [Pnut.Sandbox.Capability C] (host : Host) (sandbox : Sandbox C)

/-- The settings of a process, as its options say. -/
def prctlsOf (process : Config.ProcessOptions) : Prctl → Option UInt64
  | .dumpable => some (if process.dumpable then 1 else 0)
  | .noNewPrivs => if process.noNewPrivs then some 1 else none
  | .mdwe => if process.mdwe then some Config.PR_MDWE_REFUSE_EXEC_GAIN else none
  | .tsc => if process.disableTsc then some Child.PR_TSC_SIGSEGV else none
  | .parentDeathSignal => if process.dieWithParent then some 9 else none

/-- The limit of a resource, in the resource's unit. -/
def limitOf (limits : Option Config.ResourceLimits) (resource : CInt) : Option UInt64 :=
  limits.bind fun limits => (limits.values.lookup resource).join

/-- The descriptors that are made, each from its source. -/
def dupsOf (fd : Option Pnut.Sandbox.FileDescriptors) : List (CInt × CInt) :=
  ((fd.elim [] (·.mappings)).filter fun m => m.src ≠ m.dst).map fun m => (m.src, m.dst)

/-- What the process has and does at `execve`. -/
structure Confined (w : State) (exec : ExecSpec) (envp : Envp) : Prop where
  prepared : Config.Succeeds (sandbox.prepare host)
  /-- The namespaces, with the bit that asks `clone3` for a pidfd. -/
  created : w.created &&& ~~~Parent.CLONE_PIDFD = cloneFlags sandbox.namespaces.created
  /-- In once mode there is a pipe to wait at and one to report on, in execve mode neither. -/
  pipes : w.pipes.length = if sandbox.mode = .once then 2 else 0
  /-- In execve mode the process has written its id maps itself. -/
  mapped : sandbox.mode = .execve →
    ∃ pid, w.files = Handshake.idMapFiles (parentOf sandbox) pid
  path : exec.path = sandbox.command.args.head sandbox.args_ne_nil
  argv : exec.argv = sandbox.command.argv0.getD (sandbox.command.args.head sandbox.args_ne_nil) ::
    sandbox.command.args.tail
  envp : envp = if sandbox.env.isSome then .storage else .environ
  prctls : w.attrs.prctls = prctlsOf sandbox.process
  session : w.attrs.session = sandbox.process.newSession
  hostname : w.attrs.hostname = sandbox.namespaces.hostname
  loopback : w.attrs.loopback = sandbox.namespaces.net
  cwd : w.attrs.cwd = some sandbox.command.cwd
  rlimits : ∀ resource,
    w.attrs.rlimits resource = (limitOf sandbox.rlimits resource).map fun v => (v, v)
  mounts : Config.prepareMounts host.sources sandbox.mounts = .ok w.attrs.mounts
  env : sandbox.env.mapM (·.prepare host.environ) = .ok w.attrs.env
  landlock : sandbox.landlock.mapM (·.prepare) = .ok w.attrs.landlock
  caps : w.attrs.caps = sandbox.capabilities.map (·.prepare)
  dups : w.attrs.dups = dupsOf sandbox.fd
  closed : w.attrs.closed =
    let fds := (sandbox.fd.map (·.prepare)).getD default
    if fds.closeFds then Child.Fd.ranges fds.keep [w.statusFd, -1] else []
  filters : w.attrs.filters =
    sandbox.seccompProgram.toList.map fun program => ⟨program, Config.SECCOMP_FILTER_FLAG_TSYNC⟩

/-- What a primitive asks of the process. What would change the host asks for a namespace. -/
def Demands (w : State) : Prim → Prop
  | .mountSetup plan => w.Owns Parent.CLONE_NEWNS ∧ w.attrs.mounts = none ∧
      Config.prepareMounts host.sources sandbox.mounts = .ok (some plan)
  | .landlockApply spec => w.attrs.landlock = none ∧
      sandbox.landlock.mapM (·.prepare) = .ok (some spec)
  | .sethostname _ => w.Owns Parent.CLONE_NEWUTS
  | .bringUpLoopback => w.Owns Parent.CLONE_NEWNET
  | .execve exec envp => Confined host sandbox w exec envp
  | _ => True

/-- How a call is answered. A primitive that fails may have done a part of its work. -/
def Answers (w : State) : (op : Op) → Op.Out op → State → Prop
  | .parent .prepare, out, w' => out = sandbox.prepare host ∧ w' = w
  | .parent .pipe, .ok ends, w' => w' = { w with pipes := w.pipes ++ [ends] }
  | .parent .pipe2Cloexec, .ok ends, w' => w' = { w with pipes := w.pipes ++ [ends] }
  | .parent (.clone3 flags), .ok none, w' => w' = { w with created := flags }
  | .parent (.writeFile path content), .ok (), w' =>
    w' = { w with files := w.files ++ [(path, content)] }
  | .parent _, _, w' => w' = w
  | .unshare flags, .ok (), w' => w' = { w with created := w.created ||| flags.toUInt32.toUInt64 }
  | .unshare _, .error _, w' => w' = w
  | .getpid, _, w' => w' = w
  | .child prim, out, w' =>
    (Fails prim out ∧ ∃ a, w' = { w with attrs := a }) ∨
      (¬ Fails prim out ∧ w' = { w with attrs := w.attrs.pass prim })

def discipline : Discipline Op Op.Out State where
  allowed w op := ∀ prim, op = .child prim → Demands host sandbox w prim
  answers := Answers host sandbox

/-- The same for what comes behind `pnut_child::run`. -/
def childDiscipline : Discipline Prim Prim.Out State where
  allowed := Demands host sandbox
  answers w prim out w' :=
    (Fails prim out ∧ ∃ a, w' = { w with attrs := a }) ∨
      (¬ Fails prim out ∧ w' = { w with attrs := w.attrs.pass prim })

end Confined

/-! ## The stages of the child -/

section Stages

variable {C : Type} [Pnut.Sandbox.Capability C] {host : Host} {sandbox : Sandbox C}
  {w w₁ w₂ : State}

def State.after (w : State) (prim : Prim) : State := { w with attrs := w.attrs.pass prim }

def State.modify (w : State) (f : Attrs → Attrs) : State :=
  ⟨w.created, w.pipes, w.files, f w.attrs⟩

/-- A setting, if there is one to make. -/
def Attrs.setPrctl (a : Attrs) (option : Prctl) (arg2 : Option UInt64) : Attrs :=
  { a with prctls := arg2.elim a.prctls fun v => Function.update a.prctls option (some v) }

theorem setPrctl_prctls (a : Attrs) (option option' : Prctl) (arg2 : Option UInt64) :
    (a.setPrctl option arg2).prctls option' =
      if option' = option then arg2.or (a.prctls option') else a.prctls option' := by
  cases arg2 <;> simp [Attrs.setPrctl, Function.update_apply]

/-- A call whose check refuses its failures. -/
theorem takes_pass {prim : Prim} {judge : prim.Out → Option Failure} {rest : List SetupCheck}
    (hprim : Demands host sandbox w prim)
    (h : Takes (childDiscipline host sandbox) rest (w.modify (·.pass prim)) w₂)
    (hjudge : ∀ out, judge out = none → ¬ Fails prim out := by
      rintro (_ | _) h <;> simp_all [Child.failed, Child.mountFailed, Fails]) :
    Takes (childDiscipline host sandbox) (.call prim judge :: rest) w w₂ := by
  refine takes_call hprim ?_ h
  rintro out w' (⟨hfails, -⟩ | ⟨-, rfl⟩) hnone
  · exact absurd hfails (hjudge out hnone)
  · rfl

/-- A stage of one call. -/
theorem takes_option {α : Type} {o : Option α} {prim : α → Prim}
    {judge : (a : α) → (prim a).Out → Option Failure} {f : Option α → Attrs → Attrs}
    (hprim : ∀ a, o = some a → Demands host sandbox w (prim a))
    (hnone : ∀ attrs, f none attrs = attrs := by exact fun _ => rfl)
    (hsome : ∀ a attrs, f (some a) attrs = attrs.pass (prim a) := by exact fun _ _ => rfl)
    (hjudge : ∀ a out, judge a out = none → ¬ Fails (prim a) out := by
      rintro _ (_ | _) h <;> simp_all [Child.failed, Child.mountFailed, Fails]) :
    Takes (childDiscipline host sandbox) (o.elim [] fun a => [.call (prim a) (judge a)]) w
      (w.modify (f o)) := by
  refine takes_elim (w := w) (f := fun o => w.modify (f o)) ?_ fun a ha => ?_
  · simp only [State.modify, hnone]
  · simp only [State.modify, hsome]
    exact takes_pass (hprim a ha) takes_nil (hjudge a)

/-- A stage of one call that is switched on. -/
theorem takes_switch {c : Bool} {prim : Prim} {judge : prim.Out → Option Failure}
    {f : Bool → Attrs → Attrs} (hprim : c = true → Demands host sandbox w prim)
    (hfalse : ∀ attrs, f false attrs = attrs := by exact fun _ => rfl)
    (htrue : ∀ attrs, f true attrs = attrs.pass prim := by exact fun _ => rfl)
    (hjudge : ∀ out, judge out = none → ¬ Fails prim out := by
      rintro (_ | _) h <;> simp_all [Child.failed, Child.mountFailed, Fails]) :
    Takes (childDiscipline host sandbox) (if c then [.call prim judge] else []) w
      (w.modify (f c)) := by
  refine takes_ite (w := w) (f := fun c => w.modify (f c)) ?_ fun hc => ?_
  · simp only [State.modify, hfalse]
  · simp only [State.modify, htrue]
    exact takes_pass (hprim hc) takes_nil hjudge

/-- The actions that do something. -/
def movesOf (actions : List Child.FdAction) : List (CInt × CInt) :=
  actions.filterMap fun
    | .dup2 src dst => if src ≠ dst then some (src, dst) else none
    | .close _ => none

theorem takes_actions (actions : List Child.FdAction) :
    Takes (childDiscipline host sandbox) (Child.actionChecks actions) w
      (w.modify fun a => { a with dups := a.dups ++ movesOf actions }) := by
  induction actions generalizing w with
  | nil => simpa [Child.actionChecks, State.modify, movesOf] using takes_nil
  | cons action rest ih =>
    rcases action with ⟨src, dst⟩ | fd
    · unfold Child.actionChecks
      by_cases hne : src ≠ dst
      · rw [if_pos hne]
        refine takes_pass trivial ?_
        simpa [State.modify, Attrs.pass, movesOf, hne] using @ih (w.modify (·.pass (.dup2 src dst)))
      · rw [if_neg hne]
        simpa [movesOf, hne] using ih
    · exact takes_pass trivial ih

theorem takes_closing (c : Bool) (ranges : List (UInt32 × UInt32)) :
    Takes (childDiscipline host sandbox) (if c then Child.rangeChecks ranges else []) w
      (w.modify fun a => { a with closed := a.closed ++ if c then ranges else [] }) := by
  cases c with
  | false => simpa [State.modify] using takes_nil
  | true =>
    rw [if_pos rfl, if_pos rfl]
    induction ranges generalizing w with
    | nil => simpa [Child.rangeChecks, State.modify] using takes_nil
    | cons range rest ih =>
      have hrest := @ih (w.modify (·.pass (.closeRange range.1 range.2)))
      simp only [State.modify, Attrs.pass, List.append_assoc, List.singleton_append] at hrest
      exact takes_pass trivial hrest

theorem takes_tsc (target : Target) (c : Bool) :
    Takes (childDiscipline host sandbox) (if c then Child.tscChecks target else []) w
      (w.modify fun a => a.setPrctl .tsc (if c then some Child.PR_TSC_SIGSEGV else none)) := by
  cases c with
  | false => exact takes_nil
  | true =>
    cases target with
    | x86 => exact takes_pass trivial takes_nil
    | other => exact takes_refuse _

/-- The settings that a spec asks for. -/
def settingsOf (process : Child.ProcessSpec) : Prctl → Option UInt64
  | .dumpable => some (if process.dumpable then 1 else 0)
  | .noNewPrivs => if process.noNewPrivs then some 1 else none
  | .mdwe => process.mdweFlags
  | .tsc => if process.disableTsc then some Child.PR_TSC_SIGSEGV else none
  | .parentDeathSignal => process.pdeathsig.map fun sig => sig.toInt64.toUInt64

/-- What the stages of a spec set. -/
def attrsOf (spec : ChildSpec) : Attrs where
  prctls := settingsOf spec.process
  mounts := spec.mounts
  hostname := spec.hostname
  loopback := spec.bringUpLoopback
  rlimits := spec.rlimits.elim (fun _ => none) (setLimits fun _ => none)
  landlock := spec.landlock
  env := spec.env
  caps := spec.caps
  session := spec.process.newSession
  dups := movesOf spec.fds.actions
  closed := if spec.fds.closeFds then Child.Fd.ranges spec.fds.keep spec.extraKeep else []
  filters := spec.seccomp.toList
  cwd := spec.cwd

/-- What the spec asks of the namespaces of the process, and where its plans come from. -/
structure Permitted (host : Host) (sandbox : Sandbox C) (w : State) (spec : ChildSpec) : Prop where
  mounts : ∀ plan, spec.mounts = some plan → w.Owns Parent.CLONE_NEWNS ∧
    Config.prepareMounts host.sources sandbox.mounts = .ok (some plan)
  hostname : spec.hostname.isSome → w.Owns Parent.CLONE_NEWUTS
  loopback : spec.bringUpLoopback = true → w.Owns Parent.CLONE_NEWNET
  landlock : ∀ landlock, spec.landlock = some landlock →
    sandbox.landlock.mapM (·.prepare) = .ok (some landlock)

theorem takes_plan {target : Target} {spec : ChildSpec} (hw : w.attrs = .init)
    (hpermitted : Permitted host sandbox w spec) (hcompletion : spec.completion = none) :
    Takes (childDiscipline host sandbox) (Child.plan target spec) w
      { w with attrs := attrsOf spec } := by
  have hstages : Takes (childDiscipline host sandbox) (Child.setupStages target spec).flatten w
      { w with attrs := attrsOf spec } := by
    unfold Child.setupStages
    have hvalid : Takes (childDiscipline host sandbox)
        (if spec.completionIsValid then []
          else [.refuse (⟨.completion, 0, 1⟩ : Failure)]) w w := by
      split_ifs
      · exact takes_nil
      · exact takes_refuse _
    refine Takes.stage hvalid ?_
    refine Takes.stage (takes_option (f := fun o a =>
      a.setPrctl .parentDeathSignal (o.map fun sig => sig.toInt64.toUInt64)) fun _ _ => trivial) ?_
    refine Takes.stage (takes_switch (f := fun _ a => a) fun _ => trivial) ?_
    refine Takes.stage (takes_elim (f := fun _ => _) rfl fun fd _ =>
      takes_pass trivial (takes_pass trivial takes_nil)) ?_
    refine Takes.stage (takes_pass trivial takes_nil) ?_
    refine Takes.stage (takes_option (f := fun o a => { a with mounts := o.or a.mounts })
      fun _ h => ⟨(hpermitted.mounts _ h).1, congrArg Attrs.mounts hw,
        (hpermitted.mounts _ h).2⟩) ?_
    refine Takes.stage (takes_option (f := fun o a => { a with hostname := o.or a.hostname })
      fun _ h => hpermitted.hostname (by simp [h])) ?_
    refine Takes.stage (takes_switch (f := fun c a => { a with loopback := c || a.loopback })
      hpermitted.loopback) ?_
    refine Takes.stage (takes_option (f := fun o a =>
      { a with rlimits := o.elim a.rlimits (setLimits a.rlimits) }) fun _ _ => trivial) ?_
    refine Takes.stage (takes_option (f := fun o a => { a with landlock := o.or a.landlock })
      fun _ h => ⟨congrArg Attrs.landlock hw, hpermitted.landlock _ h⟩) ?_
    refine Takes.stage (takes_option (f := fun o a => { a with env := o.or a.env })
      fun _ _ => trivial) ?_
    refine Takes.stage (takes_option (f := fun o a => { a with caps := o.or a.caps })
      fun _ _ => trivial) ?_
    refine Takes.stage (takes_switch (f := fun c a => { a with session := c || a.session })
      fun _ => trivial) ?_
    refine Takes.stage (takes_actions _) ?_
    refine Takes.stage (takes_closing _ _) ?_
    refine Takes.stage (takes_tsc _ _) ?_
    refine Takes.stage (takes_switch (f := fun c a =>
      a.setPrctl .noNewPrivs (if c then some 1 else none)) fun _ => trivial) ?_
    refine Takes.stage (takes_option (f := fun o a => a.setPrctl .mdwe o) fun _ _ => trivial) ?_
    refine Takes.stage (takes_option (f := fun o a =>
      { a with filters := o.elim a.filters fun spec => a.filters ++ [spec] }) fun _ _ => trivial) ?_
    refine Takes.stage (takes_option (f := fun o a => { a with cwd := o.or a.cwd })
      fun _ _ => trivial) ?_
    rw [List.flatten_nil]
    convert takes_nil using 1
    obtain ⟨created, pipes, files, attrs⟩ := w
    obtain rfl : attrs = .init := hw
    refine congrArg (State.mk created pipes files) (Attrs.ext ?_ (Option.or_none).symm
      (Option.or_none).symm (Bool.or_false _).symm ?_ (Option.or_none).symm (Option.or_none).symm
      (Option.or_none).symm (Bool.or_false _).symm rfl rfl ?_ (Option.or_none).symm)
    · show _ = (((((Attrs.init.setPrctl .parentDeathSignal
        (spec.process.pdeathsig.map fun sig => sig.toInt64.toUInt64)).pass
        (.prctl .dumpable (if spec.process.dumpable then 1 else 0))).setPrctl .tsc
        (if spec.process.disableTsc then some Child.PR_TSC_SIGSEGV else none)).setPrctl .noNewPrivs
        (if spec.process.noNewPrivs then some 1 else none)).setPrctl .mdwe
        spec.process.mdweFlags).prctls
      funext option
      cases option <;> simp [attrsOf, settingsOf, setPrctl_prctls, Attrs.pass, Attrs.init]
    · show _ = spec.rlimits.elim (fun _ => none) (setLimits fun _ => none)
      rfl
    · show _ = spec.seccomp.elim [] fun filter => [] ++ [filter]
      cases h : spec.seccomp <;> simp [attrsOf, h]
  rw [Child.plan, Child.completionStage, hcompletion]
  simpa using hstages

/-- The reports and the exit ask for nothing. -/
theorem obeys_early {α : Type} {p : Runtime α} (hp : p.Always (Handshake.Early 0)) :
    p.Obeys (childDiscipline host sandbox) (fun _ _ => True) w :=
  hp.obeys fun _ prim h => by cases prim <;> trivial

theorem always_execReport {reporter : Child.Reporter} {err : Errno} {exitCode : CInt}
    {path : String} : (reporter.reportExecErrno err exitCode path).Always (Handshake.Early 0) := by
  have hlines : ((Child.Reporter.execMessages err path).forM Child.writeStderr).Always
      (Handshake.Early 0) :=
    ⟨trivial, fun _ => ⟨trivial, fun _ => ⟨trivial, fun _ => trivial⟩⟩⟩
  rcases reporter with ⟨_ | fd⟩
  · exact hlines
  · refine ⟨trivial, fun out => ?_⟩
    rcases out with e | _
    · exact hlines
    · trivial

/-- The child, started in a process with the namespaces that its spec needs. -/
theorem run_obeys {target : Target} {spec : ChildSpec} (hw : w.attrs = .init)
    (hpermitted : Permitted host sandbox w spec) (hcompletion : spec.completion = none)
    (hexec : Confined host sandbox { w with attrs := attrsOf spec } spec.exec spec.envp) :
    (Child.run target spec).Obeys (childDiscipline host sandbox) (fun _ _ => True) w := by
  rw [Child.run_eq, bind_assoc]
  refine Obeys.bind (takes_plan hw hpermitted hcompletion) ?_
  rintro w' (_ | f) hw'
  · obtain rfl := hw' rfl
    refine ⟨hexec, fun err w' _ => ?_⟩
    show Obeys _ _ _ ((Child.Reporter.mk spec.statusFd).reportExecErrno err (Child.execExit err)
      spec.exec.path >>= fun _ => Child.exitImmediately (Child.execExit err))
    exact Obeys.bind (obeys_early always_execReport) fun _ _ _ =>
      obeys_early Handshake.always_exit
  · rw [Child.Reporter.stop_some_bind]
    exact Obeys.bind (obeys_early (Handshake.always_sendAndStderr _ _ _)) fun _ _ _ =>
      obeys_early Handshake.always_exit

end Stages

/-! ## What the child is handed -/

section Handed

variable {C : Type} [Pnut.Sandbox.Capability C] {host : Host} {sandbox : Sandbox C} {w : State}

/-- Limits of different resources are all set. -/
theorem setLimits_values {values : List (CInt × Option UInt64)}
    (h : (values.map Prod.fst).Nodup) (limits : CInt → Option (UInt64 × UInt64)) (resource : CInt) :
    setLimits limits
        ⟨values.filterMap fun entry => entry.2.map (Config.makeRlimit entry.1)⟩ resource =
      ((values.lookup resource).join.map fun v => (v, v)).or (limits resource) := by
  induction values generalizing limits with
  | nil => rfl
  | cons entry values ih =>
    obtain ⟨resource', value⟩ := entry
    rw [List.map_cons, List.nodup_cons] at h
    have hrest := ih h.2 (value.elim limits fun v =>
      Function.update limits resource' (some (v, v)))
    have hfold : setLimits limits ⟨((resource', value) :: values).filterMap fun entry =>
        entry.2.map (Config.makeRlimit entry.1)⟩ =
        setLimits (value.elim limits fun v => Function.update limits resource' (some (v, v)))
          ⟨values.filterMap fun entry => entry.2.map (Config.makeRlimit entry.1)⟩ := by
      cases value <;> rfl
    rw [hfold, hrest]
    by_cases heq : resource = resource'
    · subst heq
      have hnone : values.lookup resource = none := by
        refine List.lookup_eq_none_iff.2 fun p hp => ?_
        have hmem : p.1 ∈ values.map Prod.fst := List.mem_map_of_mem hp
        exact bne_iff_ne.2 fun heq => h.1 (heq ▸ hmem)
      cases value <;> simp [hnone]
    · have hne : (resource == resource') = false := beq_false_of_ne heq
      cases value <;> simp [List.lookup_cons, hne, Function.update_of_ne heq]

theorem setLimits_prepare (limits : Option Config.ResourceLimits) (resource : CInt) :
    (limits.map (·.prepare)).elim (fun _ => none) (setLimits fun _ => none) resource =
      (limitOf limits resource).map fun v => (v, v) := by
  cases limits with
  | none => rfl
  | some limits =>
    have hnodup : (limits.values.map Prod.fst).Nodup := by
      simp only [Config.ResourceLimits.values, List.map_cons, List.map_nil]
      decide
    have h := setLimits_values hnodup (fun _ => none) resource
    rw [Option.or_none] at h
    exact h

theorem movesOf_prepare (fd : Option Pnut.Sandbox.FileDescriptors) :
    movesOf ((fd.map Pnut.Sandbox.FileDescriptors.prepare).getD default).actions = dupsOf fd := by
  cases fd with
  | none => rfl
  | some fd =>
    show movesOf (fd.mappings.map Pnut.Sandbox.FdMapping.toAction) = dupsOf (some fd)
    unfold movesOf dupsOf
    rw [List.filterMap_map, Option.elim_some]
    induction fd.mappings with
    | nil => rfl
    | cons m ms ih =>
      by_cases h : m.src = m.dst <;>
        simp_all [Pnut.Sandbox.FdMapping.toAction]

theorem settingsOf_prepare (process : Config.ProcessOptions) :
    settingsOf process.prepare = prctlsOf process := by
  funext option
  cases option with
  | parentDeathSignal =>
    obtain ⟨_, dieWithParent⟩ := process
    cases dieWithParent <;> rfl
  | _ => rfl

theorem isSome_of_mapM {α β : Type} {f : α → Except String β} {o : Option α} {r : Option β}
    (h : o.mapM f = .ok r) : r.isSome = o.isSome := by
  cases o with
  | none =>
    obtain rfl := Except.ok.inj h
    rfl
  | some a =>
    rw [Option.mapM_some] at h
    cases ha : f a with
    | error e => simp [ha, Functor.map, Except.map] at h
    | ok b =>
      rw [ha] at h
      obtain rfl := Except.ok.inj h
      rfl

theorem prepareSeccomp_eq {program : List Bpf.SockFilter} (h : program.length ≤ 65535) :
    Config.prepareSeccomp program = ⟨program, Config.SECCOMP_FILTER_FLAG_TSYNC⟩ := by
  have hlen : program.length.toUInt16.toNat = program.length := by
    simp only [Nat.toUInt16, UInt16.toNat_ofNat']
    omega
  rw [Config.prepareSeccomp, hlen, List.take_length]

/-- The spec, with the descriptors of the pipes. -/
theorem confined_of_prepared {spec : ChildSpec} {syncFd statusFd : Option CInt}
    (hspec : sandbox.prepare host = .ok spec)
    (hlen : ∀ program ∈ sandbox.seccompProgram, program.length ≤ 65535)
    (hcreated : w.created &&& ~~~Parent.CLONE_PIDFD = cloneFlags sandbox.namespaces.created)
    (hpipes : w.pipes.length = if sandbox.mode = .once then 2 else 0)
    (hstatus : statusFd.getD (-1) = w.statusFd)
    (hmapped : sandbox.mode = .execve →
      ∃ pid, w.files = Handshake.idMapFiles (parentOf sandbox) pid) :
    Confined host sandbox
      { w with attrs := attrsOf { spec with syncFd := syncFd, statusFd := statusFd } }
      spec.exec spec.envp := by
  obtain ⟨env, mounts, landlock, henv, hmounts, hlandlock, rfl⟩ := Config.prepare_ok hspec
  have hfilters : (sandbox.seccompProgram.map Config.prepareSeccomp).toList =
      sandbox.seccompProgram.toList.map fun program =>
        ⟨program, Config.SECCOMP_FILTER_FLAG_TSYNC⟩ := by
    cases hprogram : sandbox.seccompProgram with
    | none => rfl
    | some program => simp [prepareSeccomp_eq (hlen program hprogram)]
  exact
    { prepared := ⟨_, hspec⟩
      created := hcreated
      pipes := hpipes
      mapped := hmapped
      path := rfl
      argv := rfl
      envp := by simp [Config.specOf, Child.ChildSpec.envp, isSome_of_mapM henv]
      prctls := settingsOf_prepare sandbox.process
      session := rfl
      hostname := rfl
      loopback := rfl
      cwd := rfl
      rlimits := setLimits_prepare sandbox.rlimits
      mounts := hmounts
      env := henv
      landlock := hlandlock
      caps := rfl
      dups := movesOf_prepare sandbox.fd
      closed := hstatus ▸ rfl
      filters := hfilters }

/-- Each flag that is asked for is in the flags. -/
theorem cloneFlags_owns (ns : Parent.Namespaces) :
    (ns.mount = true → cloneFlags ns &&& Parent.CLONE_NEWNS ≠ 0) ∧
      (ns.uts = true → cloneFlags ns &&& Parent.CLONE_NEWUTS ≠ 0) ∧
      (ns.net = true → cloneFlags ns &&& Parent.CLONE_NEWNET ≠ 0) := by
  obtain ⟨user, pid, mount, uts, ipc, net, cgroup, time⟩ := ns
  revert user pid mount uts ipc net cgroup time
  decide +kernel

theorem owns_of_created {ns : Parent.Namespaces} {flag : UInt64}
    (hflag : ~~~Parent.CLONE_PIDFD &&& flag = flag)
    (hcreated : w.created &&& ~~~Parent.CLONE_PIDFD = cloneFlags ns)
    (h : cloneFlags ns &&& flag ≠ 0) : w.Owns flag := by
  rwa [← hcreated, UInt64.and_assoc, hflag] at h

/-- The namespaces are those that the spec needs. -/
theorem permitted_of_prepared {spec : ChildSpec} {syncFd statusFd : Option CInt}
    (hspec : sandbox.prepare host = .ok spec)
    (hcreated : w.created &&& ~~~Parent.CLONE_PIDFD = cloneFlags sandbox.namespaces.created) :
    Permitted host sandbox w { spec with syncFd := syncFd, statusFd := statusFd } := by
  obtain ⟨env, mounts, landlock, -, hmounts, hlandlock, rfl⟩ := Config.prepare_ok hspec
  obtain ⟨hmount, huts, hnet⟩ := cloneFlags_owns sandbox.namespaces.created
  refine ⟨fun plan h => ⟨?_, h ▸ hmounts⟩, fun h => ?_, fun h => ?_, fun plan h => ?_⟩
  · refine owns_of_created (by decide) hcreated (hmount (sandbox.mount_of_mounts fun hnil => ?_))
    rw [hnil] at hmounts
    obtain rfl := Except.ok.inj hmounts
    cases h
  · exact owns_of_created (by decide) hcreated (huts (sandbox.uts_of_hostname h))
  · exact owns_of_created (by decide) hcreated (hnet h)
  · exact h ▸ hlandlock

end Handed

/-- The flags of the two modes say the namespaces. -/
theorem clone3_created (ns : Parent.Namespaces) :
    (cloneFlags ns ||| Parent.CLONE_PIDFD) &&& ~~~Parent.CLONE_PIDFD = cloneFlags ns := by
  obtain ⟨user, pid, mount, uts, ipc, net, cgroup, time⟩ := ns
  revert user pid mount uts ipc net cgroup time
  decide +kernel

theorem unshare_created {ns : Parent.Namespaces} (hpid : ns.pid = false) :
    (0 ||| (cloneFlags ns &&& ~~~Parent.CLONE_NEWPID).toUInt32.toInt32.toUInt32.toUInt64) &&&
      ~~~Parent.CLONE_PIDFD = cloneFlags ns := by
  obtain ⟨user, pid, mount, uts, ipc, net, cgroup, time⟩ := ns
  obtain rfl : pid = false := hpid
  revert user mount uts ipc net cgroup time
  decide +kernel

/-! ## The process -/

section Process

variable {C : Type} [Pnut.Sandbox.Capability C] {host : Host} {sandbox : Sandbox C} {w : State}
  {texts : Texts} {target : Target}

theorem enterChild_obeys {spec : ChildSpec}
    (h : (Child.run target spec).Obeys (childDiscipline host sandbox) (fun _ _ => True) w) :
    (enterChild target spec).Obeys (discipline host sandbox) (fun _ _ => True) w := by
  refine (Obeys.interpret (R := Eq) ?_ h rfl).mono fun _ _ _ => trivial
  rintro w _ prim rfl hprim
  refine Obeys.perform ?_ fun out w' hans => ⟨w', hans, rfl⟩
  rintro _ ⟨⟩
  exact hprim

/-- What the parent asks for: that the child can be entered. -/
def parentDiscipline (host : Host) (sandbox : Sandbox C) (target : Target) :
    Discipline Parent.Op Parent.Op.Out State where
  allowed w op := ∀ spec, op = .enterChild spec →
    (Child.run target spec).Obeys (childDiscipline host sandbox) (fun _ _ => True) w
  answers w op := Answers host sandbox w (.parent op)

theorem interpret_obeys {α : Type} {p : Prog Parent.Op Parent.Op.Out α} {Q : State → α → Prop}
    (h : p.Obeys (parentDiscipline host sandbox target) Q w) :
    (p.interpret (ofParent target)).Obeys (discipline host sandbox) Q w := by
  refine (Obeys.interpret (R := Eq) ?_ h rfl).mono fun _ _ ⟨_, heq, hQ⟩ => heq ▸ hQ
  rintro w _ op rfl hop
  cases op with
  | enterChild spec => exact (enterChild_obeys (hop spec rfl)).mono fun _ never _ => never.elim
  | _ => exact Obeys.perform nofun fun out w' hans => ⟨w', hans, rfl⟩

/-- The parent does not become the child. -/
def Stays : Parent.Op → Prop
  | .enterChild _ => False
  | _ => True

theorem obeys_stays {α : Type} {p : Prog Parent.Op Parent.Op.Out α} (h : p.Always Stays) :
    p.Obeys (parentDiscipline host sandbox target) (fun _ _ => True) w :=
  h.obeys fun _ op hop spec heq => by
    obtain rfl := heq
    exact hop.elim

theorem stays_call {α : Type} {Q : State → α → Prop} {op : Parent.Op}
    {k : Parent.Op.Out op → Prog Parent.Op Parent.Op.Out α} (hop : Stays op)
    (h : ∀ out w', Answers host sandbox w (.parent op) out w' →
      (k out).Obeys (parentDiscipline host sandbox target) Q w') :
    (Prog.call op k).Obeys (parentDiscipline host sandbox target) Q w := by
  refine ⟨?_, h⟩
  rintro spec rfl
  exact hop.elim

theorem spawn_obeys (hmode : sandbox.mode = .once)
    (hlen : ∀ program ∈ sandbox.seccompProgram, program.length ≤ 65535) :
    Obeys (parentDiscipline host sandbox target) (fun _ _ => True) State.init
      (Parent.spawn texts (parentOf sandbox)) := by
  refine stays_call trivial ?_
  rintro out w' ⟨rfl, rfl⟩
  cases hspec : sandbox.prepare host with
  | error message => trivial
  | ok spec =>
  refine stays_call trivial ?_
  rintro (e | ⟨r, w⟩) _ rfl
  · trivial
  refine stays_call trivial ?_
  rintro (e | ⟨r', w'⟩) _ rfl
  · trivial
  refine stays_call trivial ?_
  rintro (e | _) _ rfl
  · trivial
  refine stays_call trivial ?_
  rintro (e | _ | ⟨pid, pidfd⟩) _ rfl
  · trivial
  · -- the child, in the namespaces that `clone3` has made
    refine stays_call trivial ?_
    rintro _ _ rfl
    refine stays_call trivial ?_
    rintro _ _ rfl
    refine stays_call trivial ?_
    rintro _ _ rfl
    refine ⟨?_, fun never => nomatch never⟩
    rintro _ ⟨⟩
    have hcreated := clone3_created sandbox.namespaces.created
    refine run_obeys rfl (permitted_of_prepared hspec hcreated) ?_ ?_
    · obtain ⟨env, mounts, landlock, -, -, -, rfl⟩ := Config.prepare_ok hspec
      rfl
    · exact confined_of_prepared hspec hlen hcreated (if_pos hmode).symm rfl
        fun h => absurd (hmode.symm.trans h) nofun
  · show Obeys _ _ _ (Prog.bind (ite (pidfd < 0) _ _) _)
    split_ifs
    · trivial
    refine stays_call trivial ?_
    rintro _ _ rfl
    refine stays_call trivial ?_
    rintro _ _ rfl
    trivial

/-- The process starts as it is, and only in once mode it goes on to supervise. -/
def pointInv (sandbox : Sandbox C) (w : State) : Point → Prop
  | .start => w = .init
  | .wait _ _ => sandbox.mode = .once

theorem runOnceMode_keeps (hmode : sandbox.mode = .once)
    (hlen : ∀ program ∈ sandbox.seccompProgram, program.length ≤ 65535) :
    (runOnceMode texts target sandbox).Keeps (discipline host sandbox) (pointInv sandbox)
      fun _ _ => True := by
  rintro w (_ | ⟨child, point⟩) hw
  · obtain rfl := hw
    refine interpret_obeys (Obeys.bind (spawn_obeys hmode hlen) ?_)
    rintro w (e | child) -
    · trivial
    refine Obeys.bind (obeys_stays (Parent.always_beginSetup (fun _ _ => trivial)
      (fun _ => trivial) trivial fun _ => trivial)) ?_
    rintro w (e | ⟨⟩) -
    · exact stays_call trivial fun _ _ _ => trivial
    · exact hmode
  · refine interpret_obeys (Obeys.bind (obeys_stays (Parent.always_waitForChild (fun _ => trivial)
      (fun _ _ => trivial) trivial (fun _ => trivial) (fun _ _ => trivial) point)) ?_)
    rintro w (point | result) -
    · exact hmode
    · refine Obeys.bind (obeys_stays (Parent.always_endSetup (fun _ => trivial) result)) ?_
      rintro w result -
      exact stays_call trivial fun _ _ _ => trivial

theorem writeProc_obeys (path content : String) :
    Obeys (parentDiscipline host sandbox target)
      (either (fun _ _ => True) fun w' _ => w' = { w with files := w.files ++ [(path, content)] })
      w (Parent.writeProc path content) := by
  refine stays_call trivial ?_
  rintro (e | _) w' hw'
  · trivial
  · exact hw'

theorem writeIdMaps_obeys (pid : CInt) (hfiles : w.files = []) :
    Obeys (parentDiscipline host sandbox target)
      (either (fun _ _ => True) fun w' _ =>
        w' = { w with files := Handshake.idMapFiles (parentOf sandbox) pid })
      w (Parent.writeIdMaps pid sandbox.uidMap sandbox.gidMap) := by
  refine Obeys.except_bind (writeProc_obeys _ _) ?_
  rintro _ ⟨⟩ rfl
  refine Obeys.except_bind (writeProc_obeys _ _) ?_
  rintro _ ⟨⟩ rfl
  refine (writeProc_obeys _ _).mono ?_
  rintro _ (e | ⟨⟩) h
  · trivial
  · rw [either_ok] at h ⊢
    rw [h, hfiles]
    rfl

/-- A call of the process, not of the child. -/
theorem lift_obeys {op : Op} (hop : ∀ prim, op ≠ .child prim) :
    Obeys (discipline host sandbox)
      (either (fun _ _ => True) fun w' out => Answers host sandbox w op out w')
      w (ExceptT.lift (Prog.perform op) : Step (Op.Out op)) :=
  Obeys.lift (Obeys.perform (fun prim heq => absurd heq (hop prim)) fun _ _ h => h)

theorem runExecveMode_obeys (hmode : sandbox.mode = .execve)
    (hlen : ∀ program ∈ sandbox.seccompProgram, program.length ≤ 65535) :
    Obeys (discipline host sandbox) (either (fun _ _ => True) fun _ _ => True) State.init
      (runExecveMode target sandbox) := by
  refine Obeys.except_bind (lift_obeys nofun) ?_
  rintro _ (e | _) rfl
  · trivial
  refine Obeys.except_bind (lift_obeys nofun) ?_
  rintro _ pid rfl
  refine Obeys.except_bind (interpret_obeys (writeIdMaps_obeys pid rfl)) ?_
  rintro _ ⟨⟩ rfl
  refine Obeys.except_bind (lift_obeys nofun) ?_
  rintro w out ⟨rfl, rfl⟩
  cases hspec : sandbox.prepare host with
  | error message => trivial
  | ok spec =>
    have hcreated := @unshare_created sandbox.namespaces.created (sandbox.no_pid_of_execve hmode)
    refine Obeys.lift ((enterChild_obeys (run_obeys rfl ?_ ?_ ?_)).mono fun _ _ _ => trivial)
    · exact @permitted_of_prepared C _ host sandbox _ spec spec.syncFd spec.statusFd hspec hcreated
    · obtain ⟨env, mounts, landlock, -, -, -, rfl⟩ := Config.prepare_ok hspec
      rfl
    · have hpipes : 0 = if sandbox.mode = .once then 2 else 0 := by rw [hmode]; rfl
      obtain ⟨env, mounts, landlock, -, -, -, heq⟩ := Config.prepare_ok hspec
      have hstatus : spec.statusFd.getD (-1) = -1 := by rw [heq]; rfl
      exact @confined_of_prepared C _ host sandbox _ spec spec.syncFd spec.statusFd hspec hlen
        hcreated hpipes hstatus fun _ => ⟨pid, rfl⟩

theorem run_keeps (hlen : ∀ program ∈ sandbox.seccompProgram, program.length ≤ 65535) :
    (run texts target sandbox).Keeps (discipline host sandbox) (pointInv sandbox)
      fun _ _ => True := by
  unfold run
  cases hmode : sandbox.mode with
  | once => exact runOnceMode_keeps hmode hlen
  | execve =>
    rintro w (_ | ⟨child, point⟩) hw
    · obtain rfl := hw
      refine Obeys.bind (runExecveMode_obeys hmode hlen) ?_
      rintro w (e | never) -
      · trivial
      · exact never.elim
    · exact absurd (hw.symm.trans hmode) nofun

end Process

/-! ## From the builder to the command -/

section Build

open Config (build_ok)
open Pnut.Sandbox (prepareProgram)

variable {C : Type} {b : Build} {pest : Kafel.Pest} {prelude : List Char}
  {fs : Pnut.Sandbox.FileSystem} {sources : Pnut.Sandbox.Sources} {builder : SandboxBuilder C}
  {sandbox : Sandbox C}

/-- A program that is generated fits the 16 bits of its length. -/
theorem codegen_length {policy : Kafel.Policy} {program : List Bpf.SockFilter}
    (h : policy.codegen b = .ok program) : program.length ≤ 65535 := by
  unfold Kafel.Policy.codegen Kafel.ReverseCodegen.generate at h
  simp only [Kafel.bind_eq_ok] at h
  obtain ⟨⟨_, _⟩, ⟨ranges, -, ⟨entry, cg⟩, -, h⟩, hprog⟩ := h
  obtain rfl := Except.ok.inj hprog
  simp only at h
  split_ifs at h with hlen
  · cases h
  · obtain ⟨rfl, -⟩ := Prod.mk.inj (Except.ok.inj h)
    exact not_lt.1 hlen

theorem program_length (hbuild : builder.build b pest prelude fs sources = .ok sandbox) :
    ∀ program ∈ sandbox.seccompProgram, program.length ≤ 65535 := by
  intro program hprogram
  obtain ⟨-, hprepare⟩ := build_ok hbuild
  rw [Option.mem_def.1 hprogram] at hprepare
  obtain ⟨policy, -, hcodegen⟩ := Pnut.Sandbox.prepareProgram_extended hprepare
  exact codegen_length hcodegen

variable [Pnut.Sandbox.Capability C] {host : Host} {texts : Texts} {target : Target} {w : State}
  {t : List (Event Op.Out)}

/-- What is left of a run of the sandbox obeys. -/
theorem obeys_of_run {q : Prog Op Op.Out (Point ⊕ Except Error CInt)}
    (hbuild : builder.build b pest prelude fs sources = .ok sandbox)
    (h : LoopAfter (run texts target sandbox) (run texts target sandbox .start) t q)
    (hans : Answered (Answers host sandbox) .init t w) :
    q.Obeys (discipline host sandbox) (Loop.resume (pointInv sandbox) fun _ _ => True) w := by
  have hkeeps : (run texts target sandbox).Keeps (discipline host sandbox) (pointInv sandbox)
      fun _ _ => True := run_keeps (program_length hbuild)
  exact LoopAfter.obeys hkeeps h hans (hkeeps _ _ rfl)

/-- What a primitive changes is not the process's alone, but its namespace's. -/
def namespaceOf : Prim → Option UInt64
  | .mountSetup _ => some Parent.CLONE_NEWNS
  | .sethostname _ => some Parent.CLONE_NEWUTS
  | .bringUpLoopback => some Parent.CLONE_NEWNET
  | _ => none

/-- The mounts, the hostname and the network of the host are never touched: at every call that
changes them, the process is in a namespace of its own. -/
theorem host_untouched {prim : Prim} {flag : UInt64}
    {k : prim.Out → Prog Op Op.Out (Point ⊕ Except Error CInt)}
    (hbuild : builder.build b pest prelude fs sources = .ok sandbox)
    (h : LoopAfter (run texts target sandbox) (run texts target sandbox .start) t
      (.call (.child prim) k))
    (hans : Answered (Answers host sandbox) .init t w) (hprim : namespaceOf prim = some flag) :
    w.Owns flag := by
  have hdemands := (obeys_of_run hbuild h hans).1 prim rfl
  cases prim with
  | mountSetup plan =>
    cases hprim
    exact hdemands.1
  | _ => first | cases hprim; exact hdemands | cases hprim

end Build

/-! ## Every sandbox can come to its command

The kernel can answer so that no check of the plan stops the child.
-/

/-- The kernel can let the check pass. -/
def Passes : SetupCheck → Prop
  | .call prim judge => ∃ out, ¬ Fails prim out ∧ judge out = none
  | .refuse _ => False

section Passes

variable {checks : List SetupCheck}

theorem passes_option {α : Type} {o : Option α} {checks : α → List SetupCheck}
    (h : ∀ a, ∀ check ∈ checks a, Passes check) : ∀ check ∈ o.elim [] checks, Passes check := by
  cases o with
  | none => exact List.forall_mem_nil _
  | some a => exact h a

theorem passes_switch {c : Bool} (h : ∀ check ∈ checks, Passes check) :
    ∀ check ∈ if c then checks else [], Passes check := by
  split_ifs
  · exact h
  · exact List.forall_mem_nil _

theorem passes_actions (actions : List Child.FdAction) :
    ∀ check ∈ Child.actionChecks actions, Passes check := by
  induction actions with
  | nil => exact List.forall_mem_nil _
  | cons action rest ih =>
    rcases action with ⟨src, dst⟩ | fd
    · unfold Child.actionChecks
      split_ifs
      · exact List.forall_mem_cons.2 ⟨⟨.ok (), id, rfl⟩, ih⟩
      · exact ih
    · exact List.forall_mem_cons.2 ⟨⟨.ok (), id, rfl⟩, ih⟩

/-- Nothing in the plan is refused, on a target with a time stamp counter to turn off. -/
theorem passes_plan {spec : ChildSpec} (hcompletion : spec.completion = none) :
    ∀ check ∈ Child.plan .x86 spec, Passes check := by
  have hvalid : spec.completionIsValid = true := by
    rw [Child.ChildSpec.completionIsValid, hcompletion]
  have hcall : ∀ {prim : Prim} {judge : prim.Out → Option Failure} (out : prim.Out),
      ¬ Fails prim out → judge out = none → ∀ check ∈ [Check.call prim judge], Passes check :=
    fun out hfails hjudge => List.forall_mem_singleton.2 ⟨out, hfails, hjudge⟩
  have hcompleted : ∀ check ∈ Child.completionStage spec, Passes check := by
    rw [Child.completionStage, hcompletion]
    exact List.forall_mem_nil _
  refine List.forall_mem_append.2 ⟨List.forall_mem_flatten.2 ?_, hcompleted⟩
  unfold Child.setupStages
  simp only [List.forall_mem_cons]
  refine ⟨?_, passes_option fun _ => hcall (.ok ()) id rfl,
    passes_switch (hcall (2 : CInt) id rfl),
    passes_option fun _ => List.forall_mem_cons.2 ⟨⟨.ok (), id, rfl⟩, hcall (.ok ()) id rfl⟩,
    ⟨⟨.ok (), id, rfl⟩, List.forall_mem_nil _⟩, passes_option fun _ => hcall (.ok ()) id rfl,
    passes_option fun _ => hcall (.ok ()) id rfl, passes_switch (hcall (.ok ()) id rfl),
    passes_option fun _ => hcall (.ok ()) id rfl, passes_option fun _ => hcall (.ok ()) id rfl,
    passes_option fun _ => hcall (.ok ()) id rfl, passes_option fun _ => hcall (.ok ()) id rfl,
    passes_switch (hcall (.ok ()) id rfl), passes_actions _, passes_switch ?_,
    passes_switch ?_, passes_switch (hcall (.ok ()) id rfl),
    passes_option fun _ => hcall (.ok ()) id rfl, passes_option fun _ => hcall (.ok ()) id rfl,
    passes_option fun _ => hcall (.ok ()) id rfl, List.forall_mem_nil _⟩
  · rw [if_pos hvalid]
    exact List.forall_mem_nil _
  · exact List.forall_mem_map.2 fun _ _ => ⟨.ok (), id, rfl⟩
  · exact List.forall_mem_singleton.2 ⟨.ok (), id, rfl⟩

end Passes

section Comes

variable {C : Type} [Pnut.Sandbox.Capability C] {host : Host} {sandbox : Sandbox C}
  {texts : Texts} {target : Target} {spec : ChildSpec} {w : State}
  {P : State → Prog Op Op.Out (Point ⊕ Except Error CInt) → Prop}

variable (host sandbox texts target) in
/-- The process can come to a point with `P`. -/
def Comes (P : State → Prog Op Op.Out (Point ⊕ Except Error CInt) → Prop) (w : State)
    (p : Prog Op Op.Out (Point ⊕ Except Error CInt)) : Prop :=
  (run texts target sandbox).Leads (Answers host sandbox) P w p

/-- The next call is this primitive of the child. -/
def Calls (prim : Prim) (_ : State) (q : Prog Op Op.Out (Point ⊕ Except Error CInt)) : Prop :=
  ∃ k, q = .call (.child prim) k

/-- The child gets past checks that can pass. -/
theorem comes_checks {checks rest : List SetupCheck}
    {k : Option Failure → Prog Op Op.Out (Point ⊕ Except Error CInt)}
    (hpass : ∀ check ∈ checks, Passes check)
    (h : ∀ w', Comes host sandbox texts target P w'
      (((attempts rest).interpret fun prim => Prog.perform (Op.child prim)).bind k)) :
    Comes host sandbox texts target P w
      (((attempts (checks ++ rest)).interpret
        fun prim => Prog.perform (Op.child prim)).bind k) := by
  induction checks generalizing w with
  | nil => exact h w
  | cons check checks ih =>
    obtain ⟨hcheck, hrest⟩ := List.forall_mem_cons.1 hpass
    cases check with
    | refuse f => exact hcheck.elim
    | call prim judge =>
      obtain ⟨out, hfails, hjudge⟩ := hcheck
      refine Loop.leads_call out (.inr ⟨hfails, rfl⟩) ?_
      simp only [Prog.bind, hjudge]
      exact ih hrest

/-- Every call of the plan is one that the child can come to, and so is the command. -/
theorem comes_child {k : Empty → Prog Op Op.Out (Point ⊕ Except Error CInt)}
    (hcompletion : spec.completion = none) :
    Comes host sandbox texts .x86 (Calls (.execve spec.exec spec.envp)) w
        ((enterChild .x86 spec).bind k) ∧
      ∀ prim judge, .call prim judge ∈ Child.plan .x86 spec →
        Comes host sandbox texts .x86 (Calls prim) w ((enterChild .x86 spec).bind k) := by
  have hpass := passes_plan hcompletion
  unfold enterChild
  rw [Child.run_eq, interpret_bind, interpret_bind]
  show Comes host sandbox texts .x86 _ w (((_ >>= _) >>= _) >>= _) ∧
    ∀ prim judge, _ → Comes host sandbox texts .x86 _ w (((_ >>= _) >>= _) >>= _)
  rw [bind_assoc, bind_assoc]
  constructor
  · rw [← List.append_nil (Child.plan .x86 spec)]
    exact comes_checks hpass fun w' => Loop.leads_here ⟨_, rfl⟩
  · intro prim judge hmem
    obtain ⟨checks, rest, hplan⟩ := List.append_of_mem hmem
    rw [hplan] at hpass ⊢
    exact comes_checks (fun check hcheck => hpass check (List.mem_append_left _ hcheck))
      fun w' => Loop.leads_here ⟨_, rfl⟩

/-- The child of a sandbox is started, in either mode. -/
theorem comes_start (hspec : sandbox.prepare host = .ok spec)
    (h : ∀ w syncFd statusFd k, Comes host sandbox texts target P w
      ((enterChild target { spec with syncFd := syncFd, statusFd := statusFd }).bind k)) :
    Comes host sandbox texts target P .init (run texts target sandbox .start) := by
  unfold run
  cases hmode : sandbox.mode with
  | once =>
    refine Loop.leads_call (.ok spec) ⟨hspec.symm, rfl⟩ ?_
    refine Loop.leads_call (.ok (3, 4)) rfl ?_
    refine Loop.leads_call (.ok (5, 6)) rfl ?_
    refine Loop.leads_call (.ok ()) rfl ?_
    refine Loop.leads_call (.ok none) rfl ?_
    refine Loop.leads_call () rfl ?_
    refine Loop.leads_call () rfl ?_
    refine Loop.leads_call () rfl ?_
    show Comes host sandbox texts target P _ (Prog.bind (enterChild target _) _)
    exact h _ _ _ _
  | execve =>
    refine Loop.leads_call (.ok ()) rfl ?_
    refine Loop.leads_call (100 : CInt) rfl ?_
    refine Loop.leads_call (.ok ()) rfl ?_
    refine Loop.leads_call (.ok ()) rfl ?_
    refine Loop.leads_call (.ok ()) rfl ?_
    refine Loop.leads_call (.ok spec) ⟨hspec.symm, rfl⟩ ?_
    show Comes host sandbox texts target P _ ((enterChild target spec >>= _) >>= _)
    rw [bind_assoc]
    exact h _ spec.syncFd spec.statusFd _

/-- It can come to each call of its plan. -/
theorem comes_plan {prim : Prim} {judge : prim.Out → Option Failure}
    (hspec : sandbox.prepare host = .ok spec)
    (hmem : ∀ syncFd statusFd, .call prim judge ∈
      Child.plan .x86 { spec with syncFd := syncFd, statusFd := statusFd }) :
    Comes host sandbox texts .x86 (Calls prim) .init (run texts .x86 sandbox .start) := by
  obtain ⟨env, mounts, landlock, -, -, -, rfl⟩ := Config.prepare_ok hspec
  exact comes_start hspec fun w syncFd statusFd k =>
    (comes_child rfl).2 prim judge (hmem syncFd statusFd)

end Comes

/-! A sandbox in which everything is configured, in the two modes. -/

section Demo

open Pnut.Sandbox (noFiles ioctlSource ioctlProgram_some preludeExit prepareProgram)

def demoBuilder (mode : Config.RunMode) : SandboxBuilder (Fin 41) where
  mode := mode
  command := { args := ["/bin/server", "-v"], argv0 := some "server", cwd := "/srv" }
  process := { disableTsc := true, mdwe := true }
  namespaces := { pid := mode = .once, hostname := some "box" }
  mounts := [.tmpfs "/tmp" none none false]
  uidMap := some ⟨0, 1000, 1⟩
  gidMap := some ⟨0, 1000, 1⟩
  env := some ⟨true, [("LANG", "C")], ["PATH"], by simp⟩
  rlimits := some { nofile := some 64, asMb := some 512 }
  landlock := some ⟨["/srv"], [], [], [], [], [80], [], []⟩
  capabilities := some ⟨[10]⟩
  fd := some { mappings := [⟨5, 0⟩, ⟨2, 2⟩, ⟨6, 1⟩], closeFds := true }
  seccomp := some ioctlSource

def demoSandbox (mode : Config.RunMode) (program : List Bpf.SockFilter) : Sandbox (Fin 41) where
  mode := mode
  command := { args := ["/bin/server", "-v"], argv0 := some "server", cwd := "/srv" }
  process := { disableTsc := true, mdwe := true }
  namespaces := { pid := mode = .once, hostname := some "box" }
  mounts := [.tmpfs "/tmp" none none false]
  uidMap := ⟨0, 1000, 1⟩
  gidMap := ⟨0, 1000, 1⟩
  env := some ⟨true, [("LANG", "C")], ["PATH"], by simp⟩
  rlimits := some { nofile := some 64, asMb := some 512 }
  landlock := some ⟨["/srv"], [], [], [], [], [80], [], []⟩
  capabilities := some ⟨[10]⟩
  fd := some { mappings := [⟨5, 0⟩, ⟨2, 2⟩, ⟨6, 1⟩], closeFds := true }
  seccompProgram := some program
  args_ne_nil := by simp
  uts_of_hostname := fun _ => rfl
  mount_of_mounts := fun _ => rfl
  no_pid_of_execve := by rintro rfl; rfl

def noSources : Pnut.Sandbox.Sources := ⟨fun _ => false, fun _ => .ok false⟩

def emptyHost : Host := ⟨noSources, none⟩

theorem demo_build (mode : Config.RunMode) : ∃ program,
    (demoBuilder mode).build .debug (Kafel.Pest.interpreter Kafel.silentError) preludeExit noFiles
      noSources = .ok (demoSandbox mode program) := by
  obtain ⟨program, -, hprogram⟩ := ioctlProgram_some
  have hprepare : prepareProgram .debug (Kafel.Pest.interpreter Kafel.silentError) preludeExit
      noFiles (demoBuilder mode).seccomp (demoBuilder mode).namespaces.nested =
        .ok (some program) := hprogram
  refine ⟨program, ?_⟩
  unfold SandboxBuilder.build
  rw [hprepare]
  cases mode <;> rfl

theorem demo_prepare (mode : Config.RunMode) (program : List Bpf.SockFilter) : ∃ env landlock,
    (demoSandbox mode program).prepare emptyHost = .ok (Config.specOf (demoSandbox mode program)
      (some env) (some ⟨[.tmpfs "tmp" false none none]⟩) (some landlock)) := by
  have hcommand : (demoSandbox mode program).command.prepare
      (demoSandbox mode program).args_ne_nil = .ok ⟨"/bin/server", ["server", "-v"]⟩ := by
    show Config.Command.prepare ⟨_, _, _⟩ (List.cons_ne_nil "/bin/server" ["-v"]) = _
    rfl
  have hcwd : Pnut.Sandbox.allocCstr (demoSandbox mode program).command.cwd "working directory" =
      .ok "/srv" := by
    show Pnut.Sandbox.allocCstr "/srv" _ = _
    rfl
  have hhostname : (demoSandbox mode program).namespaces.prepareHostname = .ok (some "box") := rfl
  obtain ⟨env, henv⟩ : ∃ env, (demoSandbox mode program).env.mapM (·.prepare emptyHost.environ) =
    .ok (some env) := ⟨_, rfl⟩
  have hmounts : Config.prepareMounts emptyHost.sources (demoSandbox mode program).mounts =
    .ok (some ⟨[.tmpfs "tmp" false none none]⟩) := rfl
  obtain ⟨landlock, hlandlock⟩ : ∃ landlock,
    (demoSandbox mode program).landlock.mapM (·.prepare) = .ok (some landlock) := ⟨_, rfl⟩
  refine ⟨env, landlock, ?_⟩
  unfold Config.Sandbox.prepare
  rw [hcommand, hcwd, hhostname, henv, hmounts, hlandlock]
  rfl

variable (mode : Config.RunMode)

/-- At a call of the stages, in a namespace of its own. -/
def DemoOwns (prim : Prim) (flag : UInt64) : Prop := ∃ program,
  Comes emptyHost (demoSandbox mode program) Parent.silentTexts .x86
    (fun w q => Calls prim w q ∧ w.Owns flag) .init
    (run Parent.silentTexts .x86 (demoSandbox mode program) .start)

theorem demo_untouched :
    DemoOwns .once (.mountSetup ⟨[.tmpfs "tmp" false none none]⟩) Parent.CLONE_NEWNS ∧
      DemoOwns .execve (.sethostname "box") Parent.CLONE_NEWUTS := by
  constructor
  · obtain ⟨program, hbuild⟩ := demo_build .once
    obtain ⟨env, landlock, hprepare⟩ := demo_prepare .once program
    have hcomes := @comes_plan _ _ _ _ Parent.silentTexts _
      (.mountSetup ⟨[.tmpfs "tmp" false none none]⟩) Child.mountFailed hprepare fun _ _ => by
        simp [Child.plan, Child.setupStages, Config.specOf]
    obtain ⟨t, q, w, hafter, hanswered, k, rfl⟩ := hcomes
    exact ⟨program, t, _, w, hafter, hanswered, ⟨k, rfl⟩,
      host_untouched hbuild hafter hanswered rfl⟩
  · obtain ⟨program, hbuild⟩ := demo_build .execve
    obtain ⟨env, landlock, hprepare⟩ := demo_prepare .execve program
    have hcomes := @comes_plan _ _ _ _ Parent.silentTexts _ (.sethostname "box")
      (Child.failed .hostname 0) hprepare fun _ _ => by
        simp [Child.plan, Child.setupStages, Config.specOf, demoSandbox]
    obtain ⟨t, q, w, hafter, hanswered, k, rfl⟩ := hcomes
    exact ⟨program, t, _, w, hafter, hanswered, ⟨k, rfl⟩,
      host_untouched hbuild hafter hanswered rfl⟩

end Demo

end Pnut.Process
