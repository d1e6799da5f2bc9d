import Pnut.Sandbox.Parent

/-!
# The end of supervision

The supervision loop against the kernel: signals arrive in any order, and at some point the child
ends. From then on the pidfd is readable for ever. A status that `nix` can decode ends the loop, and
every step on the way there lowers a rank; a child that is gone without such a status traps it,
since every later `waitpid` fails and is tried again.
-/

namespace Pnut.Parent

open Program
open Child (CInt Errno)

/-! ## The kernel -/

/-- How a child ends. -/
inductive Status where
  | exited (code : CInt)
  | signaled (signal : CInt)

/-- `nix` reaps the child, and decodes its status if the signal is one of its `Signal`. -/
def Status.decoded : Status → Except Errno WaitStatus
  | .exited code => .ok (.exited code)
  | .signaled signal =>
    if h : 1 ≤ signal ∧ signal ≤ 31 then .ok (.signaled ⟨signal, h⟩) else .error EINVAL

/-- What a shell makes of a status. -/
def Status.code : Status → CInt
  | .exited code => code
  | .signaled signal => 128 + signal

/-- How the child will end, and whether it may be reaped by someone else. -/
structure Fate where
  status : Status
  reapedElsewhere : Bool

inductive ChildState where
  | running
  | zombie (status : Status)
  | reaped

/-- The child, the signals that wait in the signalfd, and those that are still to come. -/
structure World where
  child : ChildState
  pending : List UInt32
  future : List UInt32

/-- What the kernel, through `nix`, answers. -/
inductive Answers : World → (op : Op) → Op.Out op → World → Prop
  | signalfd {w : World} {mask : SigSet} (out : Except Errno CInt) :
      Answers w (.signalfd mask) out w
  | ready {w : World} {pidfd sfd : CInt} : w.child ≠ .running →
      Answers w (.poll pidfd sfd) (.ok true) w
  | woken {w : World} {pidfd sfd : CInt} : w.child = .running → w.pending ≠ [] →
      Answers w (.poll pidfd sfd) (.ok false) w
  | interrupted {w : World} {pidfd sfd : CInt} : w.child = .running →
      Answers w (.poll pidfd sfd) (.error EINTR) w
  | pollFailed {w : World} {pidfd sfd : CInt} {e : Errno} : e ≠ EINTR →
      Answers w (.poll pidfd sfd) (.error e) w
  | stillAlive {w : World} {pid : CInt} : w.child = .running →
      Answers w (.waitpid pid true) (.ok .stillAlive) w
  | reaps {w : World} {pid : CInt} {status : Status} : w.child = .zombie status →
      Answers w (.waitpid pid true) status.decoded { w with child := .reaped }
  | noChild {w : World} {pid : CInt} : w.child = .reaped →
      Answers w (.waitpid pid true) (.error ECHILD) w
  | signal {w : World} {sfd : CInt} {signo : UInt32} {rest : List UInt32} :
      w.pending = signo :: rest →
      Answers w (.readSignal sfd) (.ok (some signo)) { w with pending := rest }
  | drained {w : World} {sfd : CInt} : w.pending = [] →
      Answers w (.readSignal sfd) (.ok none) w
  | readFailed {w : World} {sfd : CInt} (e : Errno) :
      Answers w (.readSignal sfd) (.error e) w
  | send {w : World} {pidfd signal : CInt} (out : Except Errno Unit) :
      Answers w (.pidfdSendSignal pidfd signal) out w

/-- What happens between the calls. -/
inductive Env (fate : Fate) : World → World → Prop
  | arrives {w : World} {signo : UInt32} {rest : List UInt32} : w.future = signo :: rest →
      Env fate w { w with pending := w.pending ++ [signo], future := rest }
  | ends {w : World} : w.child = .running → Env fate w { w with child := .zombie fate.status }
  | reaped {w : World} {status : Status} : fate.reapedElsewhere = true →
      w.child = .zombie status → Env fate w { w with child := .reaped }

/-- A result that tells the fate, or an error. -/
def Fate.Told (fate : Fate) (result : Except Error CInt) : Prop :=
  result = .ok fate.status.code ∨ ∃ e, result = .error e

section Wait

variable (texts : Texts) (childPid pidfd : CInt) (forwardSignals : Bool) (fate : Fate)

/-- Once the child has ended, the supervision does. -/
def EndsWithChild : Prop :=
  ∀ w c, w.child = .running →
    Relation.ReflTransGen
      (Program.Step Answers (Env fate) (waitForChild texts childPid pidfd forwardSignals))
      (waitForChild texts childPid pidfd forwardSignals .start, w) c →
    c.2.child ≠ .running →
    Ends Answers (Env fate) (waitForChild texts childPid pidfd forwardSignals) fate.Told c

/-- `nix` can decode the status, and nobody else reaps the child. -/
def Fate.Decodable : Prop :=
  (∃ status, fate.status.decoded = .ok status) ∧ fate.reapedElsewhere = false

/-! ## The configurations of the loop -/

/-- The calls that are still ahead, at most, were no further signal to come. -/
def World.rank (w : World) : ℕ := 20 * w.future.length + 10 * w.pending.length

/-- The child has not been reaped. -/
def World.Unreaped (w : World) : Prop := w.child = .running ∨ w.child = .zombie fate.status

/-- The configurations that the loop comes to while it can still learn the fate, with a rank. -/
inductive At : Prog Op Op.Out (WaitPoint ⊕ Except Error CInt) × World → ℕ → Prop
  | start {w : World} : w.Unreaped fate →
      At (waitForChild texts childPid pidfd forwardSignals .start, w) (w.rank + 11)
  | goPoll {w : World} (sfd : CInt) : w.Unreaped fate →
      At (.ret (.inl (.poll sfd)), w) (w.rank + 7)
  | poll {w : World} (sfd : CInt) : w.Unreaped fate →
      At (waitForChild texts childPid pidfd forwardSignals (.poll sfd), w) (w.rank + 6)
  | wait {w : World} (sfd : CInt) : w.child = .zombie fate.status →
      At (.call (Op.waitpid childPid true) fun status => .ret (waitOutcome sfd status), w)
        (w.rank + 5)
  | goDrain {w : World} (sfd : CInt) : w.Unreaped fate →
      At (.ret (.inl (.drain sfd)), w) (w.rank + 9)
  | drain {w : World} (sfd : CInt) : w.Unreaped fate →
      At (waitForChild texts childPid pidfd forwardSignals (.drain sfd), w) (w.rank + 8)
  | send {w : World} (sfd signal : CInt) : w.Unreaped fate →
      At (.call (Op.pidfdSendSignal pidfd signal) fun _ => .ret (.inl (.drain sfd)), w)
        (w.rank + 10)
  | done {w : World} (result : Except Error CInt) : fate.Told result →
      At (.ret (.inr result), w) w.rank

variable {texts childPid pidfd forwardSignals fate}

theorem Env.unreaped {w w' : World} (hdec : fate.Decodable) (h : Env fate w w')
    (hw : w.Unreaped fate) : w'.Unreaped fate := by
  cases h with
  | arrives => exact hw
  | ends => exact .inr rfl
  | reaped helse => exact absurd (helse.symm.trans hdec.2) (by simp)

/-- A signal that arrives lowers the rank, and so does nothing else between the calls, once the
child has ended. -/
theorem Env.rank_le {w w' : World} (hdec : fate.Decodable) (h : Env fate w w') :
    w'.rank ≤ w.rank ∧ (w.child ≠ .running → w'.rank < w.rank ∧ w'.child = w.child) := by
  cases h with
  | arrives hfuture =>
    unfold World.rank
    simp only [hfuture, List.length_append, List.length_cons, List.length_nil]
    exact ⟨by omega, fun _ => ⟨by omega, trivial⟩⟩
  | ends hrunning => exact ⟨le_rfl, fun h => absurd hrunning h⟩
  | reaped helse => exact absurd (helse.symm.trans hdec.2) (by simp)

variable (texts childPid pidfd forwardSignals fate) in
/-- A step to a configuration of the loop, of a lower rank once the child has ended. -/
def StepsTo (w : World) (n : ℕ) (c : Prog Op Op.Out (WaitPoint ⊕ Except Error CInt) × World) :
    Prop :=
  ∃ m, At texts childPid pidfd forwardSignals fate c m ∧ (w.child ≠ .running → m < n)

theorem StepsTo.of_lt {w : World} {n m : ℕ}
    {c : Prog Op Op.Out (WaitPoint ⊕ Except Error CInt) × World}
    (h : At texts childPid pidfd forwardSignals fate c m) (hlt : m < n) :
    StepsTo texts childPid pidfd forwardSignals fate w n c := ⟨m, h, fun _ => hlt⟩

theorem StepsTo.of_running {w : World} {n m : ℕ}
    {c : Prog Op Op.Out (WaitPoint ⊕ Except Error CInt) × World}
    (h : At texts childPid pidfd forwardSignals fate c m) (hw : w.child = .running) :
    StepsTo texts childPid pidfd forwardSignals fate w n c := ⟨m, h, fun hended => absurd hw hended⟩

theorem stepsTo_env (hdec : fate.Decodable)
    {p : Prog Op Op.Out (WaitPoint ⊕ Except Error CInt)} {k : ℕ} {w w' : World}
    (hat : At texts childPid pidfd forwardSignals fate (p, w') (w'.rank + k))
    (h : Env fate w w') :
    StepsTo texts childPid pidfd forwardSignals fate w (w.rank + k) (p, w') := by
  refine ⟨_, hat, fun hended => ?_⟩
  have := ((h.rank_le hdec).2 hended).1
  omega

theorem told_error {e : Error} : fate.Told (.error e) := .inr ⟨e, rfl⟩

theorem told_of_decoded {status : WaitStatus} (h : fate.status.decoded = .ok status) (sfd : CInt) :
    ∃ result, waitOutcome sfd fate.status.decoded = .inr result ∧ fate.Told result := by
  rcases hst : fate.status with code | signal
  · exact ⟨.ok code, rfl, .inl (by rw [hst]; rfl)⟩
  · rw [hst] at h
    unfold Status.decoded at h ⊢
    dsimp only at h ⊢
    split_ifs at h ⊢ with hknown
    exact ⟨.ok (128 + signal), rfl, .inl (by rw [hst]; rfl)⟩

/-- Every step of the loop leads to one of its configurations. -/
theorem At.step (hdec : fate.Decodable)
    {c c' : Prog Op Op.Out (WaitPoint ⊕ Except Error CInt) × World} {n : ℕ}
    (hat : At texts childPid pidfd forwardSignals fate c n)
    (h : Program.Step Answers (Env fate) (waitForChild texts childPid pidfd forwardSignals) c c') :
    StepsTo texts childPid pidfd forwardSignals fate c.2 n c' := by
  cases hat with
  | start hw =>
    rcases h.call_inv with ⟨w', henv, rfl⟩ | ⟨out, w', hans, rfl⟩
    · exact stepsTo_env hdec (.start (henv.unreaped hdec hw)) henv
    · cases hans
      rcases out with e | sfd
      · exact .of_lt (.done _ told_error) (by omega)
      · exact .of_lt (.goPoll sfd hw) (by omega)
  | goPoll sfd hw =>
    rcases h.inl_inv with ⟨w', henv, rfl⟩ | rfl
    · exact stepsTo_env hdec (.goPoll sfd (henv.unreaped hdec hw)) henv
    · exact .of_lt (.poll sfd hw) (by omega)
  | poll sfd hw =>
    rcases h.call_inv with ⟨w', henv, rfl⟩ | ⟨out, w', hans, rfl⟩
    · exact stepsTo_env hdec (.poll sfd (henv.unreaped hdec hw)) henv
    · cases hans with
      | ready hended =>
        exact .of_lt (.wait sfd (hw.resolve_left hended)) (by omega)
      | woken hrunning => exact .of_running (.goDrain sfd hw) hrunning
      | interrupted hrunning =>
        simp only [Prog.bind, if_true]
        exact .of_running (.goPoll sfd hw) hrunning
      | pollFailed hne =>
        simp only [Prog.bind, if_neg hne]
        exact .of_lt (.done _ told_error) (by omega)
  | wait sfd hw =>
    rcases h.call_inv with ⟨w', henv, rfl⟩ | ⟨out, w', hans, rfl⟩
    · have hchild := ((henv.rank_le hdec).2 (by rw [hw]; nofun)).2
      exact stepsTo_env hdec (.wait sfd (hchild.trans hw)) henv
    · cases hans with
      | stillAlive hrunning => cases hw.symm.trans hrunning
      | noChild hreaped => cases hw.symm.trans hreaped
      | reaps hzombie =>
        cases hw.symm.trans hzombie
        obtain ⟨status, hstatus⟩ := hdec.1
        obtain ⟨result, hresult, htold⟩ := told_of_decoded hstatus sfd
        dsimp only
        rw [hresult]
        exact .of_lt (.done result htold) (Nat.lt_add_of_pos_right (by omega))
  | goDrain sfd hw =>
    rcases h.inl_inv with ⟨w', henv, rfl⟩ | rfl
    · exact stepsTo_env hdec (.goDrain sfd (henv.unreaped hdec hw)) henv
    · exact .of_lt (.drain sfd hw) (by omega)
  | @drain w sfd hw =>
    rcases h.call_inv with ⟨w', henv, rfl⟩ | ⟨out, w', hans, rfl⟩
    · exact stepsTo_env hdec (.drain sfd (henv.unreaped hdec hw)) henv
    · cases hans with
      | @signal _ signo rest hpending =>
        have hrank : w.rank = World.rank { w with pending := rest } + 10 := by
          unfold World.rank
          rw [hpending, List.length_cons]
          dsimp only
          omega
        simp only [Prog.bind]
        by_cases hsignal : signo = SIGCHLD.toUInt32
        · rw [if_pos hsignal]
          exact .of_lt (.goDrain sfd hw) (by omega)
        · rw [if_neg hsignal]
          exact .of_lt (.send sfd _ hw) (by omega)
      | drained => exact .of_lt (.goPoll sfd hw) (by omega)
      | readFailed => exact .of_lt (.goPoll sfd hw) (by omega)
  | send sfd signal hw =>
    rcases h.call_inv with ⟨w', henv, rfl⟩ | ⟨out, w', hans, rfl⟩
    · exact stepsTo_env hdec (.send sfd signal (henv.unreaped hdec hw)) henv
    · cases hans
      exact .of_lt (.goDrain sfd hw) (by omega)
  | done result htold =>
    obtain ⟨w', henv, rfl⟩ := h.inr_inv
    exact stepsTo_env (k := 0) hdec (.done result htold) henv

/-- Once the child has ended, the loop is never stuck. -/
theorem At.progress {c : Prog Op Op.Out (WaitPoint ⊕ Except Error CInt) × World} {n : ℕ}
    (hat : At texts childPid pidfd forwardSignals fate c n) (hended : c.2.child ≠ .running) :
    (∃ result w, c = (.ret (.inr result), w) ∧ fate.Told result) ∨
      ∃ c', Program.Step Answers (Env fate) (waitForChild texts childPid pidfd forwardSignals)
        c c' := by
  cases hat with
  | start => exact .inr ⟨_, .call (.signalfd (.ok 0))⟩
  | goPoll => exact .inr ⟨_, .again⟩
  | poll => exact .inr ⟨_, .call (.ready hended)⟩
  | wait sfd hw => exact .inr ⟨_, .call (.reaps hw)⟩
  | goDrain => exact .inr ⟨_, .again⟩
  | drain => exact .inr ⟨_, .call (.readFailed 0)⟩
  | send => exact .inr ⟨_, .call (.send (.ok ()))⟩
  | done result htold => exact .inl ⟨result, _, rfl, htold⟩

theorem step_ended {c c' : Prog Op Op.Out (WaitPoint ⊕ Except Error CInt) × World}
    (h : Program.Step Answers (Env fate) (waitForChild texts childPid pidfd forwardSignals) c c')
    (hended : c.2.child ≠ .running) : c'.2.child ≠ .running := by
  cases h with
  | env henv =>
    cases henv with
    | arrives => exact hended
    | ends => nofun
    | reaped => nofun
  | call hans =>
    cases hans with
    | reaps => nofun
    | _ => exact hended
  | again => exact hended

/-- Where the fate can be learnt, the supervision ends with the child. -/
theorem endsWithChild_of_decodable (hdec : fate.Decodable) :
    EndsWithChild texts childPid pidfd forwardSignals fate := by
  intro w c hrunning hreach hended
  have hat : ∃ n, At texts childPid pidfd forwardSignals fate c n := by
    clear hended
    induction hreach with
    | refl => exact ⟨_, .start (.inl hrunning)⟩
    | tail _ hstep ih =>
      obtain ⟨n, hat⟩ := ih
      obtain ⟨m, hm, -⟩ := hat.step hdec hstep
      exact ⟨m, hm⟩
  obtain ⟨n, hat⟩ := hat
  refine ends_of_rank (fun c n => At texts childPid pidfd forwardSignals fate c n ∧
    c.2.child ≠ .running) ?_ ⟨hat, hended⟩
  rintro c n ⟨hat, hended⟩
  rcases hat.progress hended with hdone | hstep
  · exact .inl hdone
  · refine .inr ⟨hstep, fun c' hc' => ?_⟩
    obtain ⟨m, hm, hlt⟩ := hat.step hdec hc'
    exact ⟨m, hlt hended, hm, step_ended hc' hended⟩

/-! ## The trap -/

variable (texts childPid pidfd forwardSignals) in
/-- The configurations of the loop around a `waitpid` that always fails. -/
inductive Trapped : Prog Op Op.Out (WaitPoint ⊕ Except Error CInt) × World → Prop
  | goPoll {w : World} (sfd : CInt) : w.child = .reaped → Trapped (.ret (.inl (.poll sfd)), w)
  | poll {w : World} (sfd : CInt) : w.child = .reaped →
      Trapped (waitForChild texts childPid pidfd forwardSignals (.poll sfd), w)
  | wait {w : World} (sfd : CInt) : w.child = .reaped →
      Trapped (.call (Op.waitpid childPid true) fun status => .ret (waitOutcome sfd status), w)

theorem not_ends_of_trapped {c : Prog Op Op.Out (WaitPoint ⊕ Except Error CInt) × World}
    (h : Trapped texts childPid pidfd forwardSignals c) :
    ¬ Ends Answers (Env fate) (waitForChild texts childPid pidfd forwardSignals) fate.Told c := by
  refine not_ends_of_trap (Trapped texts childPid pidfd forwardSignals) ?_ ?_ h
  · intro result w htrap
    cases htrap
  · intro c htrap
    cases htrap with
    | goPoll sfd hw => exact ⟨_, .poll sfd hw, .again⟩
    | @poll w sfd hw =>
      have hended : w.child ≠ .running := by
        rw [hw]
        nofun
      refine ⟨_, ?_, .call (Answers.ready hended)⟩
      exact .wait sfd hw
    | @wait w sfd hw =>
      refine ⟨_, ?_, .call (Answers.noChild hw)⟩
      exact .goPoll sfd hw

variable (texts childPid pidfd forwardSignals fate) in
/-- The supervision before the child's end, and right after it. -/
theorem reaches_zombie :
    Relation.ReflTransGen
      (Program.Step Answers (Env fate) (waitForChild texts childPid pidfd forwardSignals))
      (waitForChild texts childPid pidfd forwardSignals .start, ⟨.running, [], []⟩)
      (waitForChild texts childPid pidfd forwardSignals (.poll 0),
        ⟨.zombie fate.status, [], []⟩) := by
  refine .head (.call (.signalfd (.ok 0))) (.head .again (.single (.env ?_)))
  exact .ends rfl

/-- A child that is reaped without a status that the loop can read keeps it going for ever. -/
theorem not_endsWithChild (hdec : ¬ fate.Decodable) :
    ¬ EndsWithChild texts childPid pidfd forwardSignals fate := by
  intro h
  by_cases helse : fate.reapedElsewhere = true
  · have hreach := reaches_zombie texts childPid pidfd forwardSignals fate
    refine not_ends_of_trapped (.poll 0 rfl) (h _ _ rfl (hreach.tail (.env (.reaped helse rfl))) ?_)
    nofun
  · have hundecoded : fate.status.decoded = .error EINVAL := by
      rcases hst : fate.status with code | signal
      · refine absurd ⟨⟨.exited code, by rw [hst]; rfl⟩, ?_⟩ hdec
        simpa using helse
      · unfold Status.decoded
        dsimp only
        rw [dif_neg]
        intro hknown
        refine hdec ⟨⟨.signaled ⟨signal, hknown⟩, ?_⟩, by simpa using helse⟩
        rw [hst]
        unfold Status.decoded
        exact dif_pos hknown
    have hreach := reaches_zombie texts childPid pidfd forwardSignals fate
    have hpoll := hreach.tail (.call (.ready (by nofun)))
    have hwait := hpoll.tail (.call (.reaps rfl))
    refine not_ends_of_trapped ?_ (h _ _ rfl hwait (by nofun))
    rw [hundecoded]
    exact .goPoll 0 rfl

end Wait

/-- The supervision ends with the child exactly when `nix` can decode the child's status and nobody
else reaps it. -/
theorem endsWithChild_iff (texts : Texts) (childPid pidfd : CInt) (forwardSignals : Bool)
    (fate : Fate) :
    EndsWithChild texts childPid pidfd forwardSignals fate ↔ fate.Decodable :=
  ⟨fun h => by_contra fun hdec => not_endsWithChild hdec h, endsWithChild_of_decodable⟩

/-- A child that dies of the real-time signal 34 is waited for for ever. -/
theorem realTimeSignal_not_endsWithChild :
    ¬ EndsWithChild ⟨fun _ => "", fun _ => ""⟩ 100 7 true ⟨.signaled 34, false⟩ := by
  refine not_endsWithChild ?_
  rintro ⟨⟨status, hstatus⟩, -⟩
  have hnot : (Status.signaled 34).decoded = .error EINVAL := rfl
  rw [hnot] at hstatus
  cases hstatus

end Pnut.Parent
