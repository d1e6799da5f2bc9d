import Pnut.Child.Runtime

/-!
# The child fails closed

The stages a spec configures, in the order of the runtime, are a list of checks. `run` performs
them and nothing else, reports the first that fails and exits; `execve` comes after the last.
-/

namespace Pnut.Child

open Program

/-! ## The stages of a spec -/

/-- A failure of the setup: its stage, and the errno and the detail of its record. -/
structure Failure where
  stage : Stage
  errno : Errno
  detail : CInt
  deriving DecidableEq

def Failure.record (f : Failure) : ChildFailure :=
  .new f.stage f.errno f.detail EXIT_SETUP_FAILED

abbrev SetupCheck := Check Prim.Out Failure

def failed (stage : Stage) (detail : CInt) : Except Errno Unit → Option Failure
  | .ok () => none
  | .error err => some ⟨stage, err, detail⟩

def mountFailed : Except MountError Unit → Option Failure
  | .ok () => none
  | .error err => some ⟨.mount, err.errno, err.detail⟩

/-- The calls of `apply_actions`. -/
def actionChecks : List FdAction → List SetupCheck
  | [] => []
  | .dup2 src dst :: rest =>
    if src ≠ dst then .call (.dup2 src dst) (failed .fd 0) :: actionChecks rest
    else actionChecks rest
  | .close fd :: rest => .call (.close fd) (failed .fd 0) :: actionChecks rest

/-- The ranges `close_other_fds` closes, from one position of its cursor. -/
def Fd.rangesFrom (keepSorted extraKeep : List CInt) (cursor : UInt32) : List (UInt32 × UInt32) :=
  let nextKeep := nextKeepFd cursor keepSorted extraKeep
  if nextKeep = MAX then [(cursor, MAX)]
  else if cursor < nextKeep then
    (cursor, nextKeep - 1) :: rangesFrom keepSorted extraKeep (succSat nextKeep)
  else rangesFrom keepSorted extraKeep (succSat nextKeep)
termination_by 2 ^ 32 - cursor.toNat
decreasing_by
  all_goals
    rename_i hmax _
    have hlt := UInt32.lt_iff_toNat_lt.1 (lt_succSat_nextKeepFd hmax)
    have := (succSat (nextKeepFd cursor keepSorted extraKeep)).toNat_lt
    omega

def Fd.ranges (keepSorted extraKeep : List CInt) : List (UInt32 × UInt32) :=
  rangesFrom keepSorted extraKeep 3

def rangeChecks (ranges : List (UInt32 × UInt32)) : List SetupCheck :=
  ranges.map fun range => .call (.closeRange range.1 range.2) (failed .fd 1)

def tscChecks : Target → List SetupCheck
  | .x86 => [.call (.prctl .tsc PR_TSC_SIGSEGV) (failed .tsc 0)]
  | .other => [.refuse ⟨.tsc, EOPNOTSUPP, 0⟩]

/-- The bits that are set when all the configured stages have passed. -/
def ChildSpec.completedStages (spec : ChildSpec) : UInt32 :=
  let completed : UInt32 := 0
  let completed := if spec.mounts.isSome then completed ||| COMPLETE_MOUNT_PIVOT else completed
  let completed := if spec.rlimits.isSome then completed ||| COMPLETE_RLIMITS else completed
  let completed := if spec.caps.isSome then completed ||| COMPLETE_CAPABILITIES else completed
  let completed := if spec.fds.closeFds then completed ||| COMPLETE_FD_CLOSURE else completed
  let completed :=
    if spec.process.noNewPrivs then completed ||| COMPLETE_NO_NEW_PRIVS else completed
  if spec.seccomp.isSome then completed ||| COMPLETE_SECCOMP else completed

def ChildSpec.envp (spec : ChildSpec) : Envp := if spec.env.isSome then .storage else .environ

/-- The stages before completion that the spec configures, in the order of the runtime. -/
def setupStages (target : Target) (spec : ChildSpec) : List (List SetupCheck) :=
  [if spec.completionIsValid then [] else [.refuse ⟨.completion, 0, 1⟩],
    spec.process.pdeathsig.elim [] fun sig =>
      [.call (.prctl .parentDeathSignal sig.toInt64.toUInt64) (failed .parentDeathSignal 0)],
    if spec.process.verifyParentAlive then
      [.call .getppid fun ppid => if ppid != 1 then none else some ⟨.parentCheck, 0, 1⟩]
    else [],
    spec.syncFd.elim [] fun fd =>
      [.call (.readByte fd) (failed .syncWait 0), .call (.close fd) (failed .syncWait 0)],
    [.call (.prctl .dumpable (if spec.process.dumpable then 1 else 0)) (failed .dumpable 0)],
    spec.mounts.elim [] fun mounts => [.call (.mountSetup mounts) mountFailed],
    spec.hostname.elim [] fun hostname => [.call (.sethostname hostname) (failed .hostname 0)],
    if spec.bringUpLoopback then [.call .bringUpLoopback (failed .network 0)] else [],
    spec.rlimits.elim [] fun rlimits => [.call (.rlimitApply rlimits) (failed .rlimit 0)],
    spec.landlock.elim [] fun landlock => [.call (.landlockApply landlock) (failed .landlock 0)],
    spec.env.elim [] fun env => [.call (.envPrepare env) (failed .env 0)],
    spec.caps.elim [] fun caps => [.call (.capsApply caps) (failed .capabilities 0)],
    if spec.process.newSession then [.call .setsid (failed .setsid 0)] else [],
    actionChecks spec.fds.actions,
    if spec.fds.closeFds then rangeChecks (Fd.ranges spec.fds.keep spec.extraKeep) else [],
    if spec.process.disableTsc then tscChecks target else [],
    if spec.process.noNewPrivs then [.call (.prctl .noNewPrivs 1) (failed .noNewPrivs 0)] else [],
    spec.process.mdweFlags.elim [] fun flags => [.call (.prctl .mdwe flags) (failed .mdwe 0)],
    spec.seccomp.elim [] fun seccomp => [.call (.installSeccomp seccomp) (failed .seccomp 0)],
    spec.cwd.elim [] fun cwd => [.call (.chdir cwd) (failed .cwd 0)]]

def completionStage (spec : ChildSpec) : List SetupCheck :=
  spec.completion.elim [] fun sink =>
    (if spec.completedStages == COMPLETE_STAGE_MASK then [] else [.refuse ⟨.completion, 0, 2⟩]) ++
      [.call (.writeAll sink.fd (.completion sink.binding spec.completedStages))
        (failed .completion 0),
      .call (.close sink.fd) (failed .completion 0)]

/-- All that has to pass before `execve`. -/
def plan (target : Target) (spec : ChildSpec) : List SetupCheck :=
  (setupStages target spec).flatten ++ completionStage spec

/-! ## The run performs the plan -/

section Stages

variable (reporter : Reporter)

/-- Report the failure, if there is one, and exit. -/
def Reporter.stop : Option Failure → Runtime Unit
  | none => pure ()
  | some f => do
    reporter.reportErrno f.stage f.errno f.detail EXIT_SETUP_FAILED
    exitImmediately EXIT_SETUP_FAILED

theorem exitImmediately_bind {α β : Type} (code : CInt) (f : α → Runtime β) :
    (exitImmediately code : Runtime α) >>= f = exitImmediately code := by
  unfold exitImmediately
  rw [Prog.call_bind]
  congr 1
  funext out
  exact out.elim

/-- After a failure nothing else runs. -/
theorem Reporter.stop_some_bind {α : Type} (f : Failure) (k : Unit → Runtime α) :
    reporter.stop (some f) >>= k =
      (do
        reporter.reportErrno f.stage f.errno f.detail EXIT_SETUP_FAILED
        exitImmediately EXIT_SETUP_FAILED) := by
  unfold Reporter.stop
  rw [Prog.bind_assoc]
  simp only [exitImmediately_bind]

/-- Two lists of checks in a row are one. -/
theorem attempts_stop_append {α : Type} (checks rest : List SetupCheck) (k : Unit → Runtime α) :
    (attempts checks >>= reporter.stop >>= fun _ => attempts rest >>= reporter.stop >>= k) =
      attempts (checks ++ rest) >>= reporter.stop >>= k := by
  rw [attempts_append]
  simp only [Prog.bind_assoc]
  congr 1
  funext r
  cases r with
  | none => rfl
  | some f => rw [Prog.ret_bind, reporter.stop_some_bind, reporter.stop_some_bind]

theorem require_eq (stage : Stage) (detail : CInt) (c : Bool) :
    reporter.require stage detail c =
      attempts (if c then [] else [.refuse ⟨stage, 0, detail⟩]) >>= reporter.stop := by
  cases c <;> rfl

/-- A call that may fail with an errno. `out` reads its outcome as one of a fallible step. -/
theorem check_call (stage : Stage) (detail : CInt) (op : Prim)
    (out : op.Out → Except Errno Unit) :
    reporter.check stage detail (ExceptT.mk (.call op fun o => .ret (out o))) =
      attempts [.call op fun o => failed stage detail (out o)] >>= reporter.stop := by
  unfold Reporter.check ExceptT.run ExceptT.mk attempts
  rw [Prog.call_bind, Prog.call_bind]
  congr 1
  funext o
  rw [Prog.ret_bind]
  beta_reduce
  rcases out o with err | _ <;> rfl

/-- A call, and the rest of a fallible step behind it. -/
theorem check_call_bind (stage : Stage) (detail : CInt) (op : Prim)
    (out : op.Out → Except Errno Unit) {rest : Fallible Unit} {checks : List SetupCheck}
    (h : reporter.check stage detail rest = attempts checks >>= reporter.stop) :
    reporter.check stage detail
        ((ExceptT.mk (.call op fun o => .ret (out o)) : Fallible Unit) >>= fun _ => rest) =
      attempts (.call op (fun o => failed stage detail (out o)) :: checks) >>= reporter.stop := by
  unfold Reporter.check ExceptT.run attempts
  show Prog.call op _ = Prog.call op _
  congr 1
  funext o
  show (Prog.ret (out o) >>= fun r => ExceptT.bindCont _ r) >>= _ = Prog.bind _ _
  rw [Prog.ret_bind]
  beta_reduce
  rcases out o with err | _
  · rfl
  · exact h

theorem forM_eq {α : Type} {f : α → Runtime Unit} {checks : α → List SetupCheck}
    (h : ∀ a, f a = attempts (checks a) >>= reporter.stop) (o : Option α) :
    o.forM f = attempts (o.elim [] checks) >>= reporter.stop := by
  cases o with
  | none => rfl
  | some a => exact h a

theorem runWhen_eq {x : Runtime Unit} {checks : List SetupCheck}
    (h : x = attempts checks >>= reporter.stop) (c : Bool) :
    runWhen c x = attempts (if c then checks else []) >>= reporter.stop := by
  cases c with
  | false => rfl
  | true => exact h

theorem applyActions_eq (actions : List FdAction) :
    reporter.check .fd 0 (Fd.applyActions actions) =
      attempts (actionChecks actions) >>= reporter.stop := by
  induction actions with
  | nil => rfl
  | cons action rest ih =>
    rcases action with ⟨src, dst⟩ | fd
    · unfold Fd.applyActions actionChecks
      split_ifs with hne
      · exact check_call_bind reporter .fd 0 (.dup2 src dst) id ih
      · exact ih
    · exact check_call_bind reporter .fd 0 (.close fd) id ih

theorem closeRange_eq {first last : UInt32} (h : first ≤ last) :
    Fd.closeRange first last = ExceptT.mk (.call (.closeRange first last) .ret) := by
  unfold Fd.closeRange
  rw [if_neg (UInt32.not_lt.2 h)]
  rfl

theorem closeFrom_eq (keepSorted extraKeep : List CInt) (cursor : UInt32) :
    reporter.check .fd 1 (Fd.closeFrom keepSorted extraKeep cursor) =
      attempts (rangeChecks (Fd.rangesFrom keepSorted extraKeep cursor)) >>= reporter.stop := by
  induction cursor using Fd.rangesFrom.induct keepSorted extraKeep with
  | case1 cursor nextKeep hmax =>
    unfold Fd.closeFrom Fd.rangesFrom
    simp only [nextKeep] at hmax
    rw [if_pos hmax, if_pos hmax, closeRange_eq]
    · exact check_call reporter .fd 1 (.closeRange cursor Fd.MAX) id
    · have := Fd.le_nextKeepFd cursor keepSorted extraKeep
      rwa [hmax] at this
  | case2 cursor nextKeep hmax hlt ih =>
    unfold Fd.closeFrom Fd.rangesFrom
    simp only [nextKeep] at hmax hlt ih
    rw [if_neg hmax, if_neg hmax, if_pos hlt, if_pos hlt, closeRange_eq]
    · exact check_call_bind reporter .fd 1
        (.closeRange cursor (Fd.nextKeepFd cursor keepSorted extraKeep - 1)) id ih
    · have hone : (1 : UInt32) ≤ Fd.nextKeepFd cursor keepSorted extraKeep := by
        rw [UInt32.lt_iff_toNat_lt] at hlt
        rw [UInt32.le_iff_toNat_le, UInt32.toNat_one]
        omega
      rw [UInt32.lt_iff_toNat_lt] at hlt
      rw [UInt32.le_iff_toNat_le, UInt32.toNat_sub_of_le _ _ hone, UInt32.toNat_one]
      omega
  | case3 cursor nextKeep hmax hlt ih =>
    unfold Fd.closeFrom Fd.rangesFrom
    simp only [nextKeep] at hmax hlt ih
    rw [if_neg hmax, if_neg hmax, if_neg hlt, if_neg hlt]
    exact ih

theorem tscResult_eq (target : Target) :
    reporter.check .tsc 0 (tscResult target) =
      attempts (tscChecks target) >>= reporter.stop := by
  rcases target with _ | _
  · exact check_call reporter .tsc 0 (.prctl .tsc PR_TSC_SIGSEGV) id
  · rfl

theorem checkMount_eq (mounts : MountPlan) :
    reporter.checkMount (Prog.perform (Prim.mountSetup mounts)) =
      attempts [.call (.mountSetup mounts) mountFailed] >>= reporter.stop := by
  unfold Reporter.checkMount attempts
  rw [Prog.perform_bind, Prog.call_bind]
  congr 1
  funext out
  rcases out with err | _ <;> rfl

theorem syncWait_eq (fd : CInt) :
    (reporter.check .syncWait 0 do
      readByte fd
      Fd.close fd) =
      attempts [.call (.readByte fd) (failed .syncWait 0),
        .call (.close fd) (failed .syncWait 0)] >>= reporter.stop :=
  check_call_bind reporter .syncWait 0 (.readByte fd) id
    (check_call reporter .syncWait 0 (.close fd) id)

theorem parentCheck_eq :
    (do
      let ppid ← getppid
      reporter.require .parentCheck 1 (ppid != 1)) =
      attempts [.call .getppid fun ppid => if ppid != 1 then none else some ⟨.parentCheck, 0, 1⟩]
        >>= reporter.stop := by
  unfold getppid attempts
  rw [Prog.perform_bind, Prog.call_bind]
  congr 1
  funext ppid
  beta_reduce
  rw [require_eq]
  split_ifs <;> rfl

theorem completion_eq (mask : UInt32) (sink : CompletionSink) :
    (do
      reporter.require .completion 2 (mask == COMPLETE_STAGE_MASK)
      reporter.check .completion 0 (emit sink mask)) =
      attempts ((if mask == COMPLETE_STAGE_MASK then [] else [.refuse ⟨.completion, 0, 2⟩]) ++
        [.call (.writeAll sink.fd (.completion sink.binding mask)) (failed .completion 0),
        .call (.close sink.fd) (failed .completion 0)]) >>= reporter.stop := by
  have hemit : reporter.check .completion 0 (emit sink mask) =
      attempts [.call (.writeAll sink.fd (.completion sink.binding mask)) (failed .completion 0),
        .call (.close sink.fd) (failed .completion 0)] >>= reporter.stop :=
    check_call_bind reporter .completion 0 (.writeAll sink.fd (.completion sink.binding mask)) id
      (check_call reporter .completion 0 (.close sink.fd) id)
  have happend := attempts_stop_append reporter
    (if mask == COMPLETE_STAGE_MASK then [] else [.refuse ⟨.completion, 0, 2⟩])
    [.call (.writeAll sink.fd (.completion sink.binding mask)) (failed .completion 0),
      .call (.close sink.fd) (failed .completion 0)] Prog.ret
  rw [Prog.bind_ret, Prog.bind_ret] at happend
  rw [← happend, ← require_eq, ← hemit]

/-- The stages one after the other are the checks of all of them. -/
theorem stages_eq {α : Type} (stages : List (List SetupCheck)) (k : Runtime α) :
    stages.foldr (fun checks rest => attempts checks >>= reporter.stop >>= fun _ => rest) k =
      attempts stages.flatten >>= reporter.stop >>= fun _ => k := by
  induction stages with
  | nil => rfl
  | cons checks stages ih =>
    rw [List.foldr_cons, ih, attempts_stop_append, List.flatten_cons]

theorem stage_bind {α : Type} {x : Runtime Unit} {checks : List SetupCheck}
    (h : x = attempts checks >>= reporter.stop) {rest rest' : Runtime α} (hrest : rest = rest') :
    (x >>= fun _ => rest) = attempts checks >>= reporter.stop >>= fun _ => rest' := by
  rw [h, hrest]

end Stages

/-- The exit code of a failed `execve`. -/
def execExit (err : Errno) : CInt :=
  if err = ENOENT then EXIT_COMMAND_NOT_FOUND else EXIT_SETUP_FAILED

/-- What `run` does when all the stages have passed. -/
def execStage (spec : ChildSpec) : Runtime Empty := do
  let err ← execve spec.exec spec.envp
  (Reporter.mk spec.statusFd).reportExecErrno err (execExit err) spec.exec.path
  exitImmediately (execExit err)

/-- `run` performs the plan, stops at the first failure, and goes on to `execve` otherwise. -/
theorem run_eq (target : Target) (spec : ChildSpec) :
    run target spec = attempts (plan target spec) >>= (Reporter.mk spec.statusFd).stop >>=
      fun _ => execStage spec := by
  have hexec : (do
      let err ← execve spec.exec spec.envp
      if err = ENOENT then do
        (Reporter.mk spec.statusFd).reportExecErrno err EXIT_COMMAND_NOT_FOUND spec.exec.path
        exitImmediately EXIT_COMMAND_NOT_FOUND
      else do
        (Reporter.mk spec.statusFd).reportExecErrno err EXIT_SETUP_FAILED spec.exec.path
        exitImmediately EXIT_SETUP_FAILED) = execStage spec := by
    unfold execStage execExit
    congr 1
    funext err
    split_ifs <;> rfl
  unfold plan completionStage
  rw [← attempts_stop_append, ← stages_eq]
  rw [← forM_eq _ (completion_eq _ spec.completedStages), ← hexec]
  unfold run setupStages
  dsimp only [List.foldr_cons, List.foldr_nil]
  refine stage_bind _ (require_eq _ .completion 1 _) ?_
  refine stage_bind _ (forM_eq _ (fun sig : CInt => check_call _ _ _
    (.prctl .parentDeathSignal sig.toInt64.toUInt64) id) _) ?_
  refine stage_bind _ (runWhen_eq _ (parentCheck_eq _) _) ?_
  refine stage_bind _ (forM_eq _ (syncWait_eq _) _) ?_
  refine stage_bind _ (check_call _ _ _ (.prctl .dumpable _) id) ?_
  refine stage_bind _ (forM_eq _ (checkMount_eq _) _) ?_
  refine stage_bind _ (forM_eq _ (fun hostname => check_call _ _ _ (.sethostname hostname) id) _) ?_
  refine stage_bind _ (runWhen_eq _ (check_call _ _ _ .bringUpLoopback id) _) ?_
  refine stage_bind _ (forM_eq _ (fun rlimits => check_call _ _ _ (.rlimitApply rlimits) id) _) ?_
  refine stage_bind _ (forM_eq _ (fun landlock => check_call _ _ _
    (.landlockApply landlock) id) _) ?_
  refine stage_bind _ (forM_eq _ (fun env => check_call _ _ _ (.envPrepare env) id) _) ?_
  refine stage_bind _ (forM_eq _ (fun caps => check_call _ _ _ (.capsApply caps) id) _) ?_
  refine stage_bind _ (runWhen_eq _ (check_call _ _ _ .setsid id) _) ?_
  refine stage_bind _ (applyActions_eq _ _) ?_
  refine stage_bind _ (runWhen_eq _ (closeFrom_eq _ _ _ _) _) ?_
  refine stage_bind _ (runWhen_eq _ (tscResult_eq _ _) _) ?_
  refine stage_bind _ (runWhen_eq _ (check_call _ _ _ (.prctl .noNewPrivs 1) id) _) ?_
  refine stage_bind _ (forM_eq _ (fun flags => check_call _ _ _ (.prctl .mdwe flags) id) _) ?_
  refine stage_bind _ (forM_eq _ (fun seccomp => check_call _ _ _
    (.installSeccomp seccomp) id) _) ?_
  refine stage_bind _ (forM_eq _ (fun cwd => check_call _ _ _ (.chdir cwd) id) _) ?_
  rfl

/-! ## The traces of a run -/

abbrev Trace := List (Event Prim.Out)

/-- Best effort: the lines are written to stderr, whatever comes of it. -/
def WritesStderr (texts : List String) (t : Trace) : Prop :=
  t.map (·.1) = texts.map fun text => Prim.writeAll 2 (.message text)

/-- The record is sent, or lines to stderr stand in for it. -/
def Reported (statusFd : Option CInt) (record : ChildFailure) (texts : List String) (t : Trace) :
    Prop :=
  match statusFd with
  | none => WritesStderr texts t
  | some fd => ∃ sent t', t = ⟨.writeAll fd (.failure record), sent⟩ :: t' ∧
    match sent with
    | .ok () => t' = []
    | .error _ => WritesStderr texts t'

section Runs

variable {t : Trace}

/-- A call of a primitive that always comes back. -/
theorem Runs.perform_inv {α : Type} {op : Prim} {k : op.Out → Runtime α} {e : Ending Prim α}
    (hop : ¬ op.Final) (h : Runs Prim.Final (.call op k) t e) :
    ∃ out t', t = ⟨op, out⟩ :: t' ∧ Runs Prim.Final (k out) t' e := by
  rcases h.call_inv with h | ⟨-, -, hfinal⟩
  · exact h
  · exact absurd hfinal hop

theorem Runs.exit_inv {α : Type} {code : CInt} {e : Ending Prim α}
    (h : Runs Prim.Final (exitImmediately code) t e) : t = [] ∧ e = .left (.exit code) := by
  rcases h.call_inv with ⟨out, -⟩ | ⟨rfl, rfl, -⟩
  · exact out.elim
  · exact ⟨rfl, rfl⟩

theorem runs_writeStderr {text : String} {e : Ending Prim Unit}
    (h : Runs Prim.Final (writeStderr text) t e) :
    e = .returned () ∧ WritesStderr [text] t := by
  obtain ⟨out, t', rfl, hret⟩ := @Runs.perform_inv _ _ (.writeAll 2 (.message text)) _ _ id h
  obtain ⟨rfl, rfl⟩ := hret.ret_inv
  exact ⟨rfl, rfl⟩

theorem runs_forM_writeStderr {texts : List String} {e : Ending Prim Unit}
    (h : Runs Prim.Final (texts.forM writeStderr) t e) :
    e = .returned () ∧ WritesStderr texts t := by
  induction texts generalizing t with
  | nil =>
    obtain ⟨rfl, rfl⟩ := h.ret_inv
    exact ⟨rfl, rfl⟩
  | cons text texts ih =>
    rcases Runs.bind_inv h with ⟨t₁, t₂, a, rfl, h₁, h₂⟩ | ⟨op, -, h₁⟩
    · obtain ⟨he, hrest⟩ := ih h₂
      refine ⟨he, ?_⟩
      unfold WritesStderr at hrest ⊢
      rw [List.map_append, hrest, (runs_writeStderr h₁).2]
      rfl
    · exact absurd (runs_writeStderr h₁).1 (by simp)

/-- Sending a record, and then what stands in for it. -/
theorem runs_report {reporter : Reporter} {record : ChildFailure} {texts : List String}
    {fallback : Runtime Unit} {e : Ending Prim Unit}
    (hfallback : ∀ t e, Runs Prim.Final fallback t e → e = .returned () ∧ WritesStderr texts t)
    (h : Runs Prim.Final (do
      if ← reporter.sendFailure record then pure () else fallback) t e) :
    e = .returned () ∧ Reported reporter.statusFd record texts t := by
  unfold Reporter.sendFailure at h
  unfold Reported
  cases hfd : reporter.statusFd with
  | none =>
    rw [hfd] at h
    exact hfallback t e h
  | some fd =>
    rw [hfd] at h
    obtain ⟨out, t', rfl, hrest⟩ :=
      @Runs.perform_inv _ _ (.writeAll fd (.failure record)) _ _ id h
    rcases out with err | _
    · obtain ⟨he, ht⟩ := hfallback t' e hrest
      exact ⟨he, .error err, t', rfl, ht⟩
    · obtain ⟨rfl, rfl⟩ := Runs.ret_inv hrest
      exact ⟨rfl, .ok (), [], rfl, rfl⟩

/-- A report, and the exit behind it. -/
theorem runs_report_exit {α : Type} {report : Runtime Unit} {code : CInt} {P : Trace → Prop}
    {e : Ending Prim α}
    (hreport : ∀ t e, Runs Prim.Final report t e → e = .returned () ∧ P t)
    (h : Runs Prim.Final (report >>= fun _ => exitImmediately code) t e) :
    P t ∧ e = .left (.exit code) := by
  rcases Runs.bind_inv h with ⟨t₁, t₂, a, rfl, h₁, h₂⟩ | ⟨op, -, h₁⟩
  · obtain ⟨rfl, rfl⟩ := Runs.exit_inv h₂
    rw [List.append_nil]
    exact ⟨(hreport t₁ _ h₁).2, rfl⟩
  · exact absurd (hreport t _ h₁).1 (by simp)

end Runs

/-- How a run may go: it stops at a failure, leaves in `execve`, or reports that `execve` failed. -/
inductive RunShape (target : Target) (spec : ChildSpec) : Trace → Ending Prim Empty → Prop
  | stopped {setup report : Trace} {f : Failure} :
      Performs (plan target spec) setup (some f) →
      Reported spec.statusFd f.record [f.stage.message] report →
      RunShape target spec (setup ++ report) (.left (.exit EXIT_SETUP_FAILED))
  | left {setup : Trace} : Performs (plan target spec) setup none →
      RunShape target spec setup (.left (.execve spec.exec spec.envp))
  | execFailed {setup report : Trace} {err : Errno} : Performs (plan target spec) setup none →
      Reported spec.statusFd (.new .exec err 0 (execExit err))
        (Reporter.execMessages err spec.exec.path) report →
      RunShape target spec (setup ++ ⟨.execve spec.exec spec.envp, err⟩ :: report)
        (.left (.exit (execExit err)))

/-! ## What the plan calls -/

/-- The primitives of the stages before completion. -/
def Prim.IsSetup : Prim → Prop
  | .writeAll _ _ => False
  | .execve _ _ => False
  | .exit _ => False
  | _ => True

/-- The checks of these stages, which do not fail as the mask that is found incomplete does. -/
def IsSetupCheck : SetupCheck → Prop
  | .call op judge => op.IsSetup ∧ ∀ out f, judge out = some f → f.stage ≠ .completion
  | .refuse f => f.detail ≠ 2

def AllSetup (checks : List SetupCheck) : Prop := ∀ check ∈ checks, IsSetupCheck check

section Setup

theorem allSetup_nil : AllSetup [] := fun _ h => absurd h List.not_mem_nil

theorem AllSetup.cons {check : SetupCheck} {rest : List SetupCheck} (hcheck : IsSetupCheck check)
    (h : AllSetup rest) : AllSetup (check :: rest) := by
  intro check' hmem
  rcases List.mem_cons.1 hmem with rfl | hmem
  · exact hcheck
  · exact h check' hmem

theorem allSetup_one {check : SetupCheck} (hcheck : IsSetupCheck check) : AllSetup [check] :=
  AllSetup.cons hcheck allSetup_nil

/-- A call whose failures are of a stage other than completion. -/
theorem isSetup_call {op : Prim} {out : op.Out → Except Errno Unit} {stage : Stage}
    {detail : CInt} (hop : op.IsSetup) (hstage : stage ≠ .completion) :
    IsSetupCheck (.call op fun o => failed stage detail (out o)) := by
  refine ⟨hop, fun o f hf => ?_⟩
  beta_reduce at hf
  cases h : out o with
  | error err =>
    rw [h] at hf
    cases hf
    exact hstage
  | ok _ =>
    rw [h] at hf
    cases hf

theorem isSetup_parentCheck :
    IsSetupCheck (.call .getppid fun ppid =>
      if ppid != 1 then none else some ⟨.parentCheck, 0, 1⟩) := by
  refine ⟨trivial, fun ppid f hf => ?_⟩
  beta_reduce at hf
  split_ifs at hf
  cases hf
  nofun

theorem isSetup_mount (mounts : MountPlan) :
    IsSetupCheck (.call (.mountSetup mounts) mountFailed) := by
  refine ⟨trivial, fun out f hf => ?_⟩
  rcases out with err | _
  · cases hf
    nofun
  · cases hf

theorem allSetup_elim {α : Type} {o : Option α} {checks : α → List SetupCheck}
    (h : ∀ a, AllSetup (checks a)) : AllSetup (o.elim [] checks) := by
  rcases o with _ | a
  · exact allSetup_nil
  · exact h a

theorem allSetup_ite {c : Bool} {checks checks' : List SetupCheck} (h : AllSetup checks)
    (h' : AllSetup checks') : AllSetup (if c then checks else checks') := by
  split_ifs
  · exact h
  · exact h'

theorem allSetup_actions (actions : List FdAction) : AllSetup (actionChecks actions) := by
  induction actions with
  | nil => exact allSetup_nil
  | cons action rest ih =>
    rcases action with ⟨src, dst⟩ | fd
    · unfold actionChecks
      split_ifs
      · exact ih.cons (@isSetup_call (.dup2 src dst) id .fd 0 trivial nofun)
      · exact ih
    · exact ih.cons (@isSetup_call (.close fd) id .fd 0 trivial nofun)

theorem allSetup_ranges (ranges : List (UInt32 × UInt32)) : AllSetup (rangeChecks ranges) := by
  induction ranges with
  | nil => exact allSetup_nil
  | cons range rest ih =>
    exact ih.cons (@isSetup_call (.closeRange range.1 range.2) id .fd 1 trivial nofun)

theorem allSetup_tsc (target : Target) : AllSetup (tscChecks target) := by
  rcases target with _ | _
  · exact allSetup_one (@isSetup_call (.prctl .tsc PR_TSC_SIGSEGV) id .tsc 0 trivial nofun)
  · refine allSetup_one ?_
    show (0 : CInt) ≠ 2
    decide

theorem allSetup_stages (target : Target) (spec : ChildSpec) :
    AllSetup (setupStages target spec).flatten := by
  have hcall : ∀ (op : Prim) (out : op.Out → Except Errno Unit) (stage : Stage) (detail : CInt),
      op.IsSetup → stage ≠ .completion →
      AllSetup [.call op fun o => failed stage detail (out o)] :=
    fun _ _ _ _ hop hstage => allSetup_one (isSetup_call hop hstage)
  have hstages : ∀ checks ∈ setupStages target spec, AllSetup checks := by
    unfold setupStages
    simp only [List.forall_mem_cons]
    refine ⟨allSetup_ite allSetup_nil (allSetup_one ?_),
      allSetup_elim fun sig : CInt => hcall (.prctl _ sig.toInt64.toUInt64) id _ _ trivial nofun,
      allSetup_ite (allSetup_one isSetup_parentCheck) allSetup_nil,
      allSetup_elim fun fd => (hcall (.close fd) id .syncWait 0 trivial nofun).cons
        (@isSetup_call (.readByte fd) id .syncWait 0 trivial nofun),
      hcall (.prctl .dumpable _) id _ _ trivial nofun,
      allSetup_elim fun mounts => allSetup_one (isSetup_mount mounts),
      allSetup_elim fun hostname => hcall (.sethostname hostname) id _ _ trivial nofun,
      allSetup_ite (hcall .bringUpLoopback id _ _ trivial nofun) allSetup_nil,
      allSetup_elim fun rlimits => hcall (.rlimitApply rlimits) id _ _ trivial nofun,
      allSetup_elim fun landlock => hcall (.landlockApply landlock) id _ _ trivial nofun,
      allSetup_elim fun env => hcall (.envPrepare env) id _ _ trivial nofun,
      allSetup_elim fun caps => hcall (.capsApply caps) id _ _ trivial nofun,
      allSetup_ite (hcall .setsid id _ _ trivial nofun) allSetup_nil, allSetup_actions _,
      allSetup_ite (allSetup_ranges _) allSetup_nil, allSetup_ite (allSetup_tsc _) allSetup_nil,
      allSetup_ite (hcall (.prctl .noNewPrivs 1) id _ _ trivial nofun) allSetup_nil,
      allSetup_elim fun flags => hcall (.prctl .mdwe flags) id _ _ trivial nofun,
      allSetup_elim fun seccomp => hcall (.installSeccomp seccomp) id _ _ trivial nofun,
      allSetup_elim fun cwd => hcall (.chdir cwd) id _ _ trivial nofun,
      fun _ h => absurd h List.not_mem_nil⟩
    show (1 : CInt) ≠ 2
    decide
  intro check hmem
  obtain ⟨checks, hchecks, hmem⟩ := List.mem_flatten.1 hmem
  exact hstages checks hchecks check hmem

end Setup

theorem mem_completionStage {spec : ChildSpec} {op : Prim} {judge : op.Out → Option Failure}
    (h : Check.call op judge ∈ completionStage spec) :
    ∃ sink, spec.completion = some sink ∧
      (op = .writeAll sink.fd (.completion sink.binding spec.completedStages) ∨
        op = .close sink.fd) := by
  unfold completionStage at h
  cases hsink : spec.completion with
  | none =>
    rw [hsink] at h
    cases h
  | some sink =>
    rw [hsink] at h
    rcases List.mem_append.1 h with h | h
    · split_ifs at h
      · cases h
      · cases List.mem_singleton.1 h
    · rcases List.mem_cons.1 h with heq | h
      · cases heq
        exact ⟨sink, rfl, .inl rfl⟩
      · cases List.mem_singleton.1 h
        exact ⟨sink, rfl, .inr rfl⟩

/-- Every primitive of the plan comes back. -/
theorem plan_back {target : Target} {spec : ChildSpec} {op : Prim} {judge : op.Out → Option Failure}
    (h : Check.call op judge ∈ plan target spec) : ¬ op.Final := by
  rcases List.mem_append.1 h with h | h
  · have hsetup := (allSetup_stages target spec _ h).1
    rcases op <;> first | exact id | exact hsetup.elim
  · obtain ⟨sink, -, rfl | rfl⟩ := mem_completionStage h <;> exact id

/-- The run lemma: every run has one of the three shapes. -/
theorem run_shape {target : Target} {spec : ChildSpec} {t : Trace} {e : Ending Prim Empty}
    (h : Runs Prim.Final (run target spec) t e) : RunShape target spec t e := by
  rw [run_eq, Prog.bind_assoc] at h
  rcases h.bind_inv with ⟨setup, t₂, r, rfl, hsetup, hrest⟩ | ⟨op, rfl, hleft⟩
  · obtain ⟨r', heq, hperforms⟩ := hsetup.performs fun op judge hmem => plan_back hmem
    cases heq
    rcases r with _ | f
    · unfold Reporter.stop execStage execve at hrest
      rw [Prog.pure_eq, Prog.ret_bind, Prog.perform_bind] at hrest
      rcases hrest.call_inv with ⟨err, t', rfl, hreported⟩ | ⟨rfl, rfl, -⟩
      · obtain ⟨hreport, rfl⟩ := runs_report_exit
          (fun _ _ => runs_report fun _ _ => runs_forM_writeStderr) hreported
        exact .execFailed hperforms hreport
      · rw [List.append_nil]
        exact .left hperforms
    · rw [Reporter.stop_some_bind] at hrest
      obtain ⟨hreport, rfl⟩ := runs_report_exit
        (fun _ _ => runs_report fun _ _ => runs_writeStderr) hrest
      exact .stopped hperforms hreport
  · obtain ⟨r', heq, -⟩ := hleft.performs fun op judge hmem => plan_back hmem
    cases heq

/-! ## Fail closed -/

/-- The records of failures that a run writes, or tries to. -/
def records (t : Trace) : List ChildFailure :=
  t.filterMap fun
    | ⟨.writeAll _ (.failure record), _⟩ => some record
    | _ => none

def IsCompletion : Prim → Prop
  | .writeAll _ (.completion _ _) => True
  | _ => False

def IsExecve : Prim → Prop
  | .execve _ _ => True
  | _ => False

/-- The next call is an `execve`. -/
def AttemptsExec (t : Trace) (e : Ending Prim Empty) : Prop :=
  (∃ ev rest, t = ev :: rest ∧ IsExecve ev.1) ∨ (t = [] ∧ ∃ op, e = .left op ∧ IsExecve op)

/-- The calls of a report. -/
def IsReport : Prim → Prop
  | .writeAll _ (.failure _) => True
  | .writeAll _ (.message _) => True
  | _ => False

/-- The six primitives of `COMPLETE_STAGE_MASK` have been executed and have succeeded. -/
structure Evidence (spec : ChildSpec) (t : Trace) : Prop where
  mounts : ∃ mounts, spec.mounts = some mounts ∧ ⟨.mountSetup mounts, .ok ()⟩ ∈ t
  rlimits : ∃ rlimits, spec.rlimits = some rlimits ∧ ⟨.rlimitApply rlimits, .ok ()⟩ ∈ t
  caps : ∃ caps, spec.caps = some caps ∧ ⟨.capsApply caps, .ok ()⟩ ∈ t
  closure : spec.fds.closeFds ∧ ∀ range ∈ Fd.ranges spec.fds.keep spec.extraKeep,
    ⟨.closeRange range.1 range.2, .ok ()⟩ ∈ t
  noNewPrivs : spec.process.noNewPrivs ∧ ⟨.prctl .noNewPrivs 1, .ok ()⟩ ∈ t
  seccomp : ∃ seccomp, spec.seccomp = some seccomp ∧ ⟨.installSeccomp seccomp, .ok ()⟩ ∈ t

/-- A run of the child fails closed. -/
structure FailClosed (target : Target) (spec : ChildSpec) (t : Trace) (e : Ending Prim Empty) :
    Prop where
  /-- When `execve` is attempted, every configured stage has been attempted, in the order of the
  plan, and has succeeded. -/
  exec : ∀ pre suf, t = pre ++ suf → AttemptsExec suf e → Performs (plan target spec) pre none
  /-- The first stage that fails ends the run: all that follows is the report of it. -/
  stops : ∀ pre suf f, t = pre ++ suf → Performs (plan target spec) pre (some f) →
    Reported spec.statusFd f.record [f.stage.message] suf ∧
      e = .left (.exit EXIT_SETUP_FAILED)
  one_record : (records t).length ≤ 1
  /-- A record names the stage that failed, with its errno. -/
  names : ∀ record ∈ records t,
    (∃ pre suf f, t = pre ++ suf ∧ Performs (plan target spec) pre (some f) ∧ record = f.record) ∨
    ∃ pre suf err, t = pre ++ ⟨.execve spec.exec spec.envp, err⟩ :: suf ∧
      record = .new .exec err 0 (execExit err)
  /-- The run ends in `execve`, or exits with 126; with 127 only when `execve` found no file. -/
  ends : e = .left (.execve spec.exec spec.envp) ∨ e = .left (.exit EXIT_SETUP_FAILED) ∨
    (e = .left (.exit EXIT_COMMAND_NOT_FOUND) ∧
      ⟨.execve spec.exec spec.envp, (ENOENT : Errno)⟩ ∈ t)
  /-- The completion record comes after the evidence for it, and only the close of its sink,
  `execve` and reports come after. -/
  completion : ∀ pre suf fd binding mask out,
    t = pre ++ ⟨.writeAll fd (.completion binding mask), out⟩ :: suf →
    Evidence spec pre ∧ mask = COMPLETE_STAGE_MASK ∧
      ∃ sink, spec.completion = some sink ∧ fd = sink.fd ∧ binding = sink.binding ∧
        ∀ ev ∈ suf, ev.1 = .close sink.fd ∨ ev.1 = .execve spec.exec spec.envp ∨ IsReport ev.1
  /-- The completion record is written at most once. -/
  one_completion : ∀ pre ev suf, t = pre ++ ev :: suf → IsCompletion ev.1 →
    (∀ ev' ∈ pre, ¬ IsCompletion ev'.1) ∧ ∀ ev' ∈ suf, ¬ IsCompletion ev'.1
  /-- The mask is never found incomplete. -/
  complete : ∀ pre suf, t = pre ++ suf →
    ¬ Performs (plan target spec) pre (some ⟨.completion, 0, 2⟩)

section Split

variable {α : Type} {p : α → Prop} {s r pre suf : List α} {a b : α}

/-- What occurs once in a list splits it in one way. -/
theorem split_unique (hs : ∀ x ∈ s, ¬ p x) (hr : ∀ x ∈ r, ¬ p x)
    (h : s ++ a :: r = pre ++ b :: suf) (hb : p b) : pre = s ∧ b = a ∧ suf = r := by
  rcases List.append_eq_append_iff.1 h with ⟨c, rfl, hc⟩ | ⟨c, rfl, hc⟩
  · rcases c with _ | ⟨x, c⟩
    · simp only [List.nil_append, List.cons.injEq] at hc
      obtain ⟨rfl, rfl⟩ := hc
      exact ⟨List.append_nil s, rfl, rfl⟩
    · simp only [List.cons_append, List.cons.injEq] at hc
      obtain ⟨-, rfl⟩ := hc
      exact absurd hb (hr b (List.mem_append_right c (List.mem_cons_self ..)))
  · rcases c with _ | ⟨x, c⟩
    · simp only [List.nil_append, List.cons.injEq] at hc
      obtain ⟨rfl, rfl⟩ := hc
      exact ⟨(List.append_nil pre).symm, rfl, rfl⟩
    · simp only [List.cons_append, List.cons.injEq] at hc
      obtain ⟨rfl, rfl⟩ := hc
      exact absurd hb (hs b (List.mem_append_right pre (List.mem_cons_self ..)))

theorem not_split (hs : ∀ x ∈ s, ¬ p x) (h : s = pre ++ b :: suf) : ¬ p b :=
  hs b (h ▸ List.mem_append_right pre (List.mem_cons_self ..))

end Split

section Reported

variable {statusFd : Option CInt} {record : ChildFailure} {texts : List String} {t : Trace}

theorem WritesStderr.isReport (h : WritesStderr texts t) : ∀ ev ∈ t, IsReport ev.1 := by
  intro ev hev
  have hmem : ev.1 ∈ t.map (·.1) := List.mem_map_of_mem hev
  rw [h] at hmem
  obtain ⟨text, -, heq⟩ := List.mem_map.1 hmem
  rw [← heq]
  trivial

theorem Reported.isReport (h : Reported statusFd record texts t) : ∀ ev ∈ t, IsReport ev.1 := by
  unfold Reported at h
  rcases statusFd with _ | fd
  · exact h.isReport
  · obtain ⟨sent, t', rfl, hsent⟩ := h
    intro ev hev
    rcases List.mem_cons.1 hev with rfl | hrest
    · trivial
    · rcases sent with err | _
      · exact WritesStderr.isReport hsent ev hrest
      · rw [show t' = [] from hsent] at hrest
        cases hrest

theorem WritesStderr.records (h : WritesStderr texts t) : records t = [] := by
  unfold Child.records
  rw [List.filterMap_eq_nil_iff]
  intro ev hev
  have hmem : ev.1 ∈ t.map (·.1) := List.mem_map_of_mem hev
  rw [h] at hmem
  obtain ⟨text, -, heq⟩ := List.mem_map.1 hmem
  rcases ev with ⟨op, out⟩
  cases heq
  rfl

/-- A report writes one record at most, and it is the one reported. -/
theorem Reported.records (h : Reported statusFd record texts t) :
    records t = [] ∨ records t = [record] := by
  unfold Reported at h
  rcases statusFd with _ | fd
  · exact .inl (WritesStderr.records h)
  · obtain ⟨sent, t', rfl, hsent⟩ := h
    right
    have hrest : Child.records t' = [] := by
      rcases sent with err | _
      · exact WritesStderr.records hsent
      · rw [show t' = [] from hsent]
        rfl
    unfold Child.records at hrest ⊢
    rw [List.filterMap_cons, hrest]

end Reported

/-! ## The stages of a run -/

section Performed

variable {target : Target} {spec : ChildSpec} {t : Trace} {r : Option Failure}

theorem setup_events (h : Performs (setupStages target spec).flatten t r) :
    ∀ ev ∈ t, ev.1.IsSetup := by
  intro ev hev
  obtain ⟨judge, hmem⟩ := h.mem_calls hev
  exact (allSetup_stages target spec _ hmem).1

/-- What completion did: it wrote its record, and then at most closed its sink. -/
theorem completion_events (h : Performs (completionStage spec) t r)
    (hmask : spec.completion.isSome → spec.completedStages = COMPLETE_STAGE_MASK) :
    (t = [] ∧ r = none) ∨ ∃ sink out rest, spec.completion = some sink ∧
      t = ⟨.writeAll sink.fd (.completion sink.binding COMPLETE_STAGE_MASK), out⟩ :: rest ∧
      (∀ ev ∈ rest, ev.1 = .close sink.fd) ∧
      ∀ f, r = some f → f.stage = .completion ∧ f.detail = 0 := by
  unfold completionStage at h
  cases hsink : spec.completion with
  | none =>
    rw [hsink] at h
    cases h
    exact .inl ⟨rfl, rfl⟩
  | some sink =>
    have hmask := hmask (by rw [hsink]; rfl)
    rw [hsink, hmask] at h
    have hfailed : ∀ (out : Except Errno Unit) f, failed .completion 0 out = some f →
        f.stage = .completion ∧ f.detail = 0 := by
      intro out f hf
      rcases out with err | _
      · cases hf
        exact ⟨rfl, rfl⟩
      · cases hf
    right
    cases h with
    | failed _ hjudge =>
      refine ⟨sink, _, [], rfl, rfl, fun _ hev => absurd hev List.not_mem_nil, ?_⟩
      intro f hf
      cases hf
      exact hfailed _ _ hjudge
    | passed _ h =>
      refine ⟨sink, _, _, rfl, rfl, ?_, ?_⟩
      · intro ev hev
        rcases ev with ⟨op, out⟩
        obtain ⟨judge, hmem⟩ := h.mem_calls hev
        cases List.mem_singleton.1 hmem
        rfl
      · intro f hf
        cases h with
        | failed _ hjudge =>
          cases hf
          exact hfailed _ _ hjudge
        | passed _ h =>
          cases h
          cases hf

/-- The up-front check makes the mask complete. -/
theorem completedStages_eq (hvalid : spec.completionIsValid) (hsome : spec.completion.isSome) :
    spec.completedStages = COMPLETE_STAGE_MASK := by
  obtain ⟨sink, hsink⟩ := Option.isSome_iff_exists.1 hsome
  unfold ChildSpec.completionIsValid at hvalid
  rw [hsink] at hvalid
  simp only [Bool.and_eq_true] at hvalid
  obtain ⟨⟨⟨⟨⟨⟨⟨-, hmounts⟩, hrlimits⟩, hcaps⟩, hclose⟩, hnnp⟩, hseccomp⟩, -⟩ := hvalid
  unfold ChildSpec.completedStages
  simp only [hmounts, hrlimits, hcaps, hclose, hnnp, hseccomp, if_true]
  decide

/-- When the stages have passed, the up-front check has. -/
theorem completionIsValid_of_passed (h : Performs (setupStages target spec).flatten t none) :
    spec.completionIsValid := by
  by_contra hvalid
  refine h.refuse_not_mem ⟨.completion, 0, 1⟩
    (List.mem_flatten.2 ⟨[.refuse ⟨.completion, 0, 1⟩], ?_, ?_⟩)
  · unfold setupStages
    rw [if_neg hvalid]
    exact List.mem_cons_self ..
  · exact List.mem_singleton.2 rfl

theorem failed_eq_none {stage : Stage} {detail : CInt} {out : Except Errno Unit} :
    failed stage detail out = none ↔ out = .ok () := by
  rcases out with err | _
  · exact ⟨nofun, nofun⟩
  · exact ⟨fun _ => rfl, fun _ => rfl⟩

/-- When the stages have passed with completion asked for, the six primitives have succeeded. -/
theorem evidence_of_passed (h : Performs (setupStages target spec).flatten t none)
    (hsome : spec.completion.isSome) : Evidence spec t := by
  have hvalid := completionIsValid_of_passed h
  obtain ⟨sink, hsink⟩ := Option.isSome_iff_exists.1 hsome
  unfold ChildSpec.completionIsValid at hvalid
  rw [hsink] at hvalid
  simp only [Bool.and_eq_true] at hvalid
  obtain ⟨⟨⟨⟨⟨⟨⟨-, hmounts⟩, hrlimits⟩, hcaps⟩, hclose⟩, hnnp⟩, hseccomp⟩, -⟩ := hvalid
  have hpassed : ∀ op (judge : op.Out → Option Failure) (checks : List SetupCheck),
      checks ∈ setupStages target spec → Check.call op judge ∈ checks →
      ∃ out, ⟨op, out⟩ ∈ t ∧ judge out = none :=
    fun op judge checks hchecks hmem => h.passed_of_mem (List.mem_flatten.2 ⟨checks, hchecks, hmem⟩)
  obtain ⟨mounts, hmounts⟩ := Option.isSome_iff_exists.1 hmounts
  obtain ⟨rlimits, hrlimits⟩ := Option.isSome_iff_exists.1 hrlimits
  obtain ⟨caps, hcaps⟩ := Option.isSome_iff_exists.1 hcaps
  obtain ⟨seccomp, hseccomp⟩ := Option.isSome_iff_exists.1 hseccomp
  refine ⟨⟨mounts, hmounts, ?_⟩, ⟨rlimits, hrlimits, ?_⟩, ⟨caps, hcaps, ?_⟩, ⟨hclose, ?_⟩,
    ⟨hnnp, ?_⟩, ⟨seccomp, hseccomp, ?_⟩⟩
  · obtain ⟨out, hmem, hout⟩ := hpassed (.mountSetup mounts) mountFailed [.call _ _]
      (by simp [setupStages, hmounts]) (List.mem_singleton.2 rfl)
    rcases out with err | _
    · cases hout
    · exact hmem
  · obtain ⟨out, hmem, hout⟩ := hpassed (.rlimitApply rlimits) (failed .rlimit 0) [.call _ _]
      (by simp [setupStages, hrlimits]) (List.mem_singleton.2 rfl)
    rwa [failed_eq_none.1 hout] at hmem
  · obtain ⟨out, hmem, hout⟩ := hpassed (.capsApply caps) (failed .capabilities 0) [.call _ _]
      (by simp [setupStages, hcaps]) (List.mem_singleton.2 rfl)
    rwa [failed_eq_none.1 hout] at hmem
  · intro range hrange
    obtain ⟨out, hmem, hout⟩ := hpassed (.closeRange range.1 range.2) (failed .fd 1)
      (rangeChecks (Fd.ranges spec.fds.keep spec.extraKeep))
      (by simp [setupStages, hclose]) (List.mem_map_of_mem hrange)
    rwa [failed_eq_none.1 hout] at hmem
  · obtain ⟨out, hmem, hout⟩ := hpassed (.prctl .noNewPrivs 1) (failed .noNewPrivs 0) [.call _ _]
      (by simp [setupStages, hnnp]) (List.mem_singleton.2 rfl)
    rwa [failed_eq_none.1 hout] at hmem
  · obtain ⟨out, hmem, hout⟩ := hpassed (.installSeccomp seccomp) (failed .seccomp 0) [.call _ _]
      (by simp [setupStages, hseccomp]) (List.mem_singleton.2 rfl)
    rwa [failed_eq_none.1 hout] at hmem

end Performed

/-! ## Every run fails closed -/

section FailClosed

variable {target : Target} {spec : ChildSpec} {t setup : Trace} {r : Option Failure}
  {e : Ending Prim Empty}

/-- What was performed of the plan: some of its stages, or all of them and then completion. -/
theorem plan_cases (h : Performs (plan target spec) setup r) :
    (Performs (setupStages target spec).flatten setup r ∧ ∃ f, r = some f) ∨
      ∃ t₁ t₂, setup = t₁ ++ t₂ ∧ Performs (setupStages target spec).flatten t₁ none ∧
        Performs (completionStage spec) t₂ r := by
  rcases h.append_inv with ⟨f, rfl, h⟩ | ⟨t₁, t₂, rfl, h₁, h₂⟩
  · exact .inl ⟨h, f, rfl⟩
  · exact .inr ⟨t₁, t₂, rfl, h₁, h₂⟩

theorem records_append (t t' : Trace) : records (t ++ t') = records t ++ records t' :=
  List.filterMap_append

/-- The plan neither executes nor reports. -/
theorem plan_events (h : Performs (plan target spec) setup r) :
    ∀ ev ∈ setup, ¬ IsExecve ev.1 ∧ ¬ IsReport ev.1 := by
  intro ev hev
  obtain ⟨judge, hmem⟩ := h.mem_calls hev
  rcases ev with ⟨op, out⟩
  rcases List.mem_append.1 hmem with hmem | hmem
  · have hsetup := (allSetup_stages target spec _ hmem).1
    rcases op <;> first | exact ⟨id, id⟩ | exact hsetup.elim
  · obtain ⟨sink, -, rfl | rfl⟩ := mem_completionStage hmem <;> exact ⟨id, id⟩

theorem records_eq_nil (h : Performs (plan target spec) setup r) : records setup = [] := by
  unfold records
  rw [List.filterMap_eq_nil_iff]
  intro ev hev
  have hreport := (plan_events h ev hev).2
  rcases ev with ⟨op, out⟩
  rcases op <;> first | rfl | skip
  case writeAll fd buf =>
    rcases buf <;> first | rfl | exact (hreport trivial).elim

/-- The completion record of a plan, what comes before it and what after. -/
theorem plan_completion (h : Performs (plan target spec) setup r) {pre suf : Trace}
    {ev : Event Prim.Out} (heq : setup = pre ++ ev :: suf) (hev : IsCompletion ev.1) :
    Evidence spec pre ∧ (∀ ev' ∈ pre, ¬ IsCompletion ev'.1) ∧
      ∃ sink, spec.completion = some sink ∧
        ev.1 = .writeAll sink.fd (.completion sink.binding COMPLETE_STAGE_MASK) ∧
        ∀ ev' ∈ suf, ev'.1 = .close sink.fd := by
  have hnot : ∀ {t : Trace} {r : Option Failure},
      Performs (setupStages target spec).flatten t r → ∀ ev' ∈ t, ¬ IsCompletion ev'.1 := by
    intro t r h ev' hev' hcompletion
    have hsetup := setup_events h ev' hev'
    rcases ev' with ⟨op, out⟩
    rcases op <;> first | exact hcompletion | exact hsetup
  rcases plan_cases h with ⟨h, -⟩ | ⟨t₁, t₂, rfl, h₁, h₂⟩
  · exact absurd hev (not_split (p := fun ev : Event Prim.Out => IsCompletion ev.1) (hnot h) heq)
  · rcases completion_events h₂ (completedStages_eq (completionIsValid_of_passed h₁)) with
      ⟨rfl, -⟩ | ⟨sink, out, rest, hsink, rfl, hrest, -⟩
    · rw [List.append_nil] at heq
      exact absurd hev (not_split (p := fun ev : Event Prim.Out => IsCompletion ev.1) (hnot h₁) heq)
    · have hclose : ∀ ev' ∈ rest, ¬ IsCompletion ev'.1 := by
        intro ev' hev'
        rw [hrest ev' hev']
        exact id
      obtain ⟨rfl, rfl, rfl⟩ := split_unique
        (p := fun ev : Event Prim.Out => IsCompletion ev.1) (hnot h₁) hclose heq hev
      exact ⟨evidence_of_passed h₁ (by rw [hsink]; rfl), hnot h₁, sink, hsink, rfl, hrest⟩

/-- The mask is never found incomplete. -/
theorem plan_complete : ¬ Performs (plan target spec) setup (some ⟨.completion, 0, 2⟩) := by
  intro h
  rcases plan_cases h with ⟨h, -⟩ | ⟨t₁, t₂, rfl, h₁, h₂⟩
  · rcases h.failure_mem with hmem | ⟨op, judge, out, hmem, hout⟩
    · exact allSetup_stages target spec _ hmem rfl
    · exact (allSetup_stages target spec _ hmem).2 out _ hout rfl
  · rcases completion_events h₂ (completedStages_eq (completionIsValid_of_passed h₁)) with
      ⟨-, hr⟩ | ⟨sink, out, rest, -, -, -, hf⟩
    · cases hr
    · have := (hf _ rfl).2
      revert this
      decide

/-- What follows the plan: nothing, a report, or a failed `execve` and a report. -/
theorem RunShape.split (h : RunShape target spec t e) :
    ∃ setup suf r, t = setup ++ suf ∧ Performs (plan target spec) setup r ∧
      ∀ ev ∈ suf, ev.1 = .execve spec.exec spec.envp ∨ IsReport ev.1 := by
  rcases h with ⟨hsetup, hreport⟩ | hsetup | ⟨hsetup, hreport⟩
  · exact ⟨_, _, _, rfl, hsetup, fun ev hev => .inr (hreport.isReport ev hev)⟩
  · exact ⟨_, [], _, (List.append_nil _).symm, hsetup, fun _ h => absurd h List.not_mem_nil⟩
  · refine ⟨_, _, _, rfl, hsetup, fun ev hev => ?_⟩
    rcases List.mem_cons.1 hev with rfl | hev
    · exact .inl rfl
    · exact .inr (hreport.isReport ev hev)

/-- A completion record lies in the plan. -/
theorem RunShape.completion (h : RunShape target spec t e) {pre suf : Trace}
    {ev : Event Prim.Out} (heq : t = pre ++ ev :: suf) (hev : IsCompletion ev.1) :
    Evidence spec pre ∧ (∀ ev' ∈ pre, ¬ IsCompletion ev'.1) ∧
      ∃ sink, spec.completion = some sink ∧
        ev.1 = .writeAll sink.fd (.completion sink.binding COMPLETE_STAGE_MASK) ∧
        ∀ ev' ∈ suf, ev'.1 = .close sink.fd ∨ ev'.1 = .execve spec.exec spec.envp ∨
          IsReport ev'.1 := by
  obtain ⟨setup, rest, r, rfl, hsetup, hrest⟩ := h.split
  have hafter : ∀ ev' ∈ rest, ¬ IsCompletion ev'.1 := by
    intro ev' hev' hcompletion
    rcases ev' with ⟨op, out⟩
    rcases hrest _ hev' with rfl | hreport
    · exact hcompletion
    · rcases op <;> first | exact hreport | skip
      case writeAll fd buf =>
        rcases buf <;> first | exact hcompletion | exact hreport
  rcases List.append_eq_append_iff.1 heq with ⟨c, rfl, hc⟩ | ⟨c, rfl, hc⟩
  · exact absurd hev (not_split (p := fun ev : Event Prim.Out => IsCompletion ev.1) hafter hc)
  · rcases c with _ | ⟨ev', c⟩
    · exact absurd hev (hafter ev (show ev ∈ [] ++ rest from hc ▸ List.mem_cons_self ..))
    · simp only [List.cons_append, List.cons.injEq] at hc
      obtain ⟨rfl, rfl⟩ := hc
      obtain ⟨hevidence, hpre, sink, hsink, hcall, hclose⟩ := plan_completion hsetup rfl hev
      refine ⟨hevidence, hpre, sink, hsink, hcall, fun ev' hev' => ?_⟩
      rcases List.mem_append.1 hev' with hev' | hev'
      · exact .inl (hclose ev' hev')
      · exact .inr (hrest ev' hev')

theorem RunShape.records_length (h : RunShape target spec t e) : (records t).length ≤ 1 := by
  have hone : ∀ {suf : Trace} {record texts}, Reported spec.statusFd record texts suf →
      (records suf).length ≤ 1 := by
    intro suf record texts hsuf
    rcases hsuf.records with h | h <;> simp [h]
  rcases h with ⟨hsetup, hsuf⟩ | hsetup | @⟨_, report, err, hsetup, hsuf⟩
  · rw [records_append, records_eq_nil hsetup]
    exact hone hsuf
  · rw [records_eq_nil hsetup]
    exact Nat.zero_le 1
  · rw [records_append, records_eq_nil hsetup]
    show (records report).length ≤ 1
    exact hone hsuf

theorem RunShape.names (h : RunShape target spec t e) {record : ChildFailure}
    (hmem : record ∈ records t) :
    (∃ pre suf f, t = pre ++ suf ∧ Performs (plan target spec) pre (some f) ∧
      record = f.record) ∨
    ∃ pre suf err, t = pre ++ ⟨.execve spec.exec spec.envp, err⟩ :: suf ∧
      record = .new .exec err 0 (execExit err) := by
  have hone : ∀ {suf : Trace} {record'} {texts}, Reported spec.statusFd record' texts suf →
      record ∈ records suf → record = record' := by
    intro suf record' texts hsuf hmem
    rcases hsuf.records with h | h
    · rw [h] at hmem
      cases hmem
    · rw [h] at hmem
      exact List.mem_singleton.1 hmem
  rcases h with ⟨hsetup, hsuf⟩ | hsetup | ⟨hsetup, hsuf⟩
  · rw [records_append, records_eq_nil hsetup] at hmem
    exact .inl ⟨_, _, _, rfl, hsetup, hone hsuf hmem⟩
  · rw [records_eq_nil hsetup] at hmem
    cases hmem
  · rw [records_append, records_eq_nil hsetup] at hmem
    exact .inr ⟨_, _, _, rfl, hone hsuf hmem⟩

theorem RunShape.ends (h : RunShape target spec t e) :
    e = .left (.execve spec.exec spec.envp) ∨ e = .left (.exit EXIT_SETUP_FAILED) ∨
      (e = .left (.exit EXIT_COMMAND_NOT_FOUND) ∧
        ⟨.execve spec.exec spec.envp, (ENOENT : Errno)⟩ ∈ t) := by
  rcases h with _ | _ | @⟨_, _, err, hsetup, hreport⟩
  · exact .inr (.inl rfl)
  · exact .inl rfl
  · by_cases herr : err = ENOENT
    · subst herr
      exact .inr (.inr ⟨rfl, List.mem_append_right _ (List.mem_cons_self ..)⟩)
    · right; left
      rw [execExit, if_neg herr]

/-- When `execve` is attempted all of the plan has passed. -/
theorem RunShape.exec (h : RunShape target spec t e) {pre suf : Trace} (heq : t = pre ++ suf)
    (hexec : AttemptsExec suf e) : Performs (plan target spec) pre none := by
  have hnot : ∀ {report : Trace}, (∀ ev ∈ report, IsReport ev.1) →
      ∀ ev ∈ report, ¬ IsExecve ev.1 := by
    intro report hreport ev hev hexecve
    have := hreport ev hev
    rcases ev with ⟨op, out⟩
    rcases op <;> first | exact hexecve | exact this
  rcases h with ⟨hsetup, hreport⟩ | hsetup | ⟨hsetup, hreport⟩
  · rcases hexec with ⟨ev, rest, rfl, hev⟩ | ⟨rfl, op, he, hop⟩
    · refine absurd hev (not_split (p := fun ev : Event Prim.Out => IsExecve ev.1) ?_ heq)
      intro ev' hev'
      rcases List.mem_append.1 hev' with hev' | hev'
      · exact (plan_events hsetup ev' hev').1
      · exact hnot hreport.isReport ev' hev'
    · cases he
      exact hop.elim
  · rcases hexec with ⟨ev, rest, rfl, hev⟩ | ⟨rfl, -⟩
    · exact absurd hev (not_split (p := fun ev : Event Prim.Out => IsExecve ev.1)
        (fun ev' hev' => (plan_events hsetup ev' hev').1) heq)
    · rwa [heq, List.append_nil] at hsetup
  · rcases hexec with ⟨ev, rest, rfl, hev⟩ | ⟨rfl, op, he, hop⟩
    · obtain ⟨rfl, -, -⟩ := split_unique (p := fun ev : Event Prim.Out => IsExecve ev.1)
        (fun ev' hev' => (plan_events hsetup ev' hev').1) (hnot hreport.isReport) heq hev
      exact hsetup
    · cases he
      exact hop.elim

/-- When a stage has failed what follows is its report. -/
theorem RunShape.stops (h : RunShape target spec t e) {pre suf : Trace} {f : Failure}
    (heq : t = pre ++ suf) (hpre : Performs (plan target spec) pre (some f)) :
    Reported spec.statusFd f.record [f.stage.message] suf ∧
      e = .left (.exit EXIT_SETUP_FAILED) := by
  rcases h with ⟨hsetup, hreport⟩ | hsetup | ⟨hsetup, hreport⟩
  · obtain ⟨rfl, hf⟩ := hsetup.unique hpre heq
    cases hf
    rw [List.append_cancel_left_eq] at heq
    exact ⟨heq ▸ hreport, rfl⟩
  · cases (hsetup.unique hpre ((List.append_nil _).trans heq)).2
  · cases (hsetup.unique hpre heq).2

end FailClosed

theorem run_failClosed {target : Target} {spec : ChildSpec} {t : Trace} {e : Ending Prim Empty}
    (h : Runs Prim.Final (run target spec) t e) : FailClosed target spec t e where
  exec _ _ heq hexec := (run_shape h).exec heq hexec
  stops _ _ _ heq hpre := (run_shape h).stops heq hpre
  one_record := (run_shape h).records_length
  names _ hmem := (run_shape h).names hmem
  ends := (run_shape h).ends
  completion pre suf fd binding mask out heq := by
    obtain ⟨hevidence, -, sink, hsink, hcall, hsuf⟩ := (run_shape h).completion heq trivial
    cases hcall
    exact ⟨hevidence, rfl, sink, hsink, rfl, rfl, hsuf⟩
  one_completion pre ev suf heq hev := by
    obtain ⟨-, hpre, sink, -, -, hsuf⟩ := (run_shape h).completion heq hev
    refine ⟨hpre, fun ev' hev' hcompletion => ?_⟩
    rcases ev' with ⟨op, out⟩
    rcases hsuf _ hev' with rfl | rfl | hreport
    · exact hcompletion
    · exact hcompletion
    · rcases op <;> first | exact hreport | skip
      case writeAll fd buf =>
        rcases buf <;> first | exact hcompletion | exact hreport
  complete _ _ _ := plan_complete

/-! A run of many stages, in which the filter is refused, and the record of it cannot be sent. -/

def guardedSpec : ChildSpec :=
  { syncFd := some 3
    statusFd := some 5
    completion := none
    process := ⟨some 9, true, false, true, false, true, none⟩
    mounts := some ⟨[.mqueue "dev/mqueue"]⟩
    hostname := some "box"
    bringUpLoopback := true
    env := none
    rlimits := some ⟨[⟨7, 64, 64⟩]⟩
    landlock := some ⟨3, ⟨0x1FFF, 0⟩, [], []⟩
    caps := some ⟨.replicate 2 0, .replicate 2 0, .replicate 2 0, [21], true⟩
    fds := ⟨[.dup2 7 0, .dup2 1 1, .close 8], [0], false⟩
    seccomp := some ⟨[], 0⟩
    cwd := some "/"
    exec := ⟨"/bin/true", ["/bin/true"]⟩ }

def seccompRefused : Trace :=
  [⟨.prctl .parentDeathSignal 9, .ok ()⟩, ⟨.getppid, (42 : CInt)⟩, ⟨.readByte 3, .ok ()⟩,
    ⟨.close 3, .ok ()⟩, ⟨.prctl .dumpable 0, .ok ()⟩,
    ⟨.mountSetup ⟨[.mqueue "dev/mqueue"]⟩, .ok ()⟩, ⟨.sethostname "box", .ok ()⟩,
    ⟨.bringUpLoopback, .ok ()⟩, ⟨.rlimitApply ⟨[⟨7, 64, 64⟩]⟩, .ok ()⟩,
    ⟨.landlockApply ⟨3, ⟨0x1FFF, 0⟩, [], []⟩, .ok ()⟩,
    ⟨.capsApply ⟨.replicate 2 0, .replicate 2 0, .replicate 2 0, [21], true⟩, .ok ()⟩,
    ⟨.setsid, .ok ()⟩, ⟨.dup2 7 0, .ok ()⟩, ⟨.close 8, .ok ()⟩, ⟨.prctl .noNewPrivs 1, .ok ()⟩,
    ⟨.installSeccomp ⟨[], 0⟩, .error EINVAL⟩,
    ⟨.writeAll 5 (.failure (.new .seccomp EINVAL 0 EXIT_SETUP_FAILED)), .error EPIPE⟩,
    ⟨.writeAll 2 (.message "pnut: seccomp filter installation failed\n"), .ok ()⟩]

theorem seccompRefused_runs :
    Runs Prim.Final (run .x86 guardedSpec) seccompRefused (.left (.exit EXIT_SETUP_FAILED)) :=
  .call _ _ _ (.call _ _ _ (.call _ _ _ (.call _ _ _ (.call _ _ _ (.call _ _ _ (.call _ _ _
    (.call _ _ _ (.call _ _ _ (.call _ _ _ (.call _ _ _ (.call _ _ _ (.call _ _ _ (.call _ _ _
      (.call _ _ _ (.call _ _ _ (.call _ _ _ (.call _ _ _ (.left _ _ trivial))))))))))))))))))

theorem seccompRefused_failClosed :
    FailClosed .x86 guardedSpec seccompRefused (.left (.exit EXIT_SETUP_FAILED)) :=
  run_failClosed seccompRefused_runs

end Pnut.Child
