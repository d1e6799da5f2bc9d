import Pnut.Proofs.Cleanup
import Pnut.Proofs.Sent
import Pnut.Proofs.Supervision
import Pnut.Sandbox.Fd

/-!
# A failure of the child, seen by the parent

The two sides of one `clone3`, which share the status pipe. The parent reads the pipe when the
supervision has told it that the child has ended, and by then the child has written all it writes.
So wherever the parent is in its own calls while the child fails, what it reads is the record, and
what it returns is the failure. Each step of the parent lowers a rank once the child has ended.
-/

namespace Pnut.Once

open Program Prog
open Child (CInt Errno ChildFailure ChildSpec Payload Process Serves Table OpenFd LetsWrite Fails
  RECORD_SIZE Prim Target)
open Parent
open Sandbox (FileDescriptors)

/-! ## The fork -/

/-- One `clone3`: what the parent has left to do, and the spec that the child enters with. -/
structure Forks (texts : Texts) (sandbox : Parent.Sandbox) (spec : ChildSpec)
    (sync status child : CInt × CInt) (p : Run (Point ⊕ Except Error CInt)) (spec' : ChildSpec) :
    Prop where
  parent : After (runOnceMode texts sandbox .start)
    (cloneCalls sandbox spec sync status (.ok (some child))) p
  child : ∃ k, After (runOnceMode texts sandbox .start)
    (cloneCalls sandbox spec sync status (.ok none) ++
      [⟨.threadUnblock supervisionSignalMask, ()⟩, ⟨.close sync.2, ()⟩, ⟨.close status.1, ()⟩])
    (.call (.enterChild spec') k)

/-- What `pipe` and `pipe2` have left: the write end of the status pipe, a descriptor of its own. -/
structure Piped {File : Type} (pipe : File) (sync status : CInt × CInt) (table : Table File) :
    Prop where
  writeEnd : table.get status.2 = some ⟨pipe, true⟩
  syncRead : sync.1 ≠ status.2
  syncWrite : sync.2 ≠ status.2
  readEnd : status.1 ≠ status.2

/-- The child after it has closed the parent's ends. -/
def entered {File : Type} (sync status : CInt × CInt) (table : Table File)
    (filters : List (List Bpf.SockFilter)) : Process File :=
  ⟨(table.close sync.2).close status.1, filters, []⟩

/-! ## The kernel -/

/-- The world of the supervision, the status pipe, and what the child will still put into it. -/
structure World where
  sup : Parent.World
  pipe : List Payload
  unsent : List Payload

/-- What the kernel answers the parent. A read of the status pipe comes back with what is there,
or with nothing when no write end is left. -/
inductive Answers (statusRead : CInt) : World → (op : Op) → op.Out → World → Prop
  | supervise {w : World} {op : Op} {out : op.Out} {sup : Parent.World} :
      Parent.Answers w.sup op out sup → Answers statusRead w op out { w with sup := sup }
  | close {w : World} (fd : CInt) : Answers statusRead w (.close fd) () w
  | writeFile {w : World} (path content : String) (out : Except Errno Unit) :
      Answers statusRead w (.writeFile path content) out w
  | write {w : World} (fd : CInt) (out : Except Errno Unit) :
      Answers statusRead w (.write fd) out w
  | threadUnblock {w : World} (mask : SigSet) : Answers statusRead w (.threadUnblock mask) () w
  | reaps {w : World} {pid : CInt} {status : Status} : w.sup.child = .zombie status →
      Answers statusRead w (.waitpid pid false) status.decoded
        { w with sup := { w.sup with child := .reaped } }
  | waitFailed {w : World} (pid : CInt) (e : Errno) :
      Answers statusRead w (.waitpid pid false) (.error e) w
  | record {w : World} {record : ChildFailure} {rest : List Payload} :
      w.pipe = .failure record :: rest →
      Answers statusRead w (.readStatus statusRead) (some record) { w with pipe := rest }
  | garbage {w : World} {buf : Payload} {rest : List Payload} (out : Option ChildFailure) :
      w.pipe = buf :: rest → (∀ record, buf ≠ .failure record) →
      Answers statusRead w (.readStatus statusRead) out { w with pipe := rest }
  | eof {w : World} : w.pipe = [] → w.sup.child ≠ .running →
      Answers statusRead w (.readStatus statusRead) none w

/-- What happens between the calls of the parent: the child ends when it has sent what it sends. -/
inductive Env (fate : Fate) : World → World → Prop
  | moves {w : World} {sup : Parent.World} : Parent.Env fate w.sup sup →
      (w.sup.child = .running → sup.child ≠ .running → w.unsent = []) →
      Env fate w { w with sup := sup }
  | sends {w : World} {buf : Payload} {rest : List Payload} : w.sup.child = .running →
      w.unsent = buf :: rest → Env fate w { w with pipe := w.pipe ++ [buf], unsent := rest }

/-- The parent's own call has not failed. -/
def Works : (op : Op) → op.Out → Prop
  | .writeFile _ _, out => ∀ e, out ≠ Except.error e
  | .write _, out => ∀ e, out ≠ Except.error e
  | .signalfd _, out => ∀ e, out ≠ Except.error e
  | .poll _ _, out => ∀ e, out = Except.error e → e = EINTR
  | _, _ => True

/-- The answers to a parent whose own calls do not fail. -/
def Serving (statusRead : CInt) (w : World) (op : Op) (out : op.Out) (w' : World) : Prop :=
  Answers statusRead w op out w' ∧ Works op out

/-- Right behind `clone3`. -/
structure World.Forked (w : World) (sent : List Payload) : Prop where
  running : w.sup.child = .running
  empty : w.pipe = []
  unsent : w.unsent = sent

/-- The result that tells a failure of the child. -/
def told (texts : Texts) (sandbox : Parent.Sandbox) (stage : Child.Stage)
    (err detail exitCode : CInt) : Except Error CInt :=
  .error (.childSetup stage err detail exitCode
    (formatChildFailure texts (.new stage err detail exitCode) sandbox))

/-- The failure of the child is not lost: its record is all that is in the pipe, no record has been
written to a descriptor that is mapped, and the parent returns the failure and nothing else, which
it does once the child has ended, in whatever order things happen. -/
structure Delivered (texts : Texts) (sandbox : Parent.Sandbox) (statusRead : CInt) (fate : Fate)
    (d : Option FileDescriptors) (p : Run (Point ⊕ Except Error CInt)) (t : Child.Trace)
    (sent : List Payload) (stage : Child.Stage) (err detail exitCode : CInt) : Prop where
  reaches : sent = [.failure (.new stage err detail exitCode)]
  unmapped : ∀ fd record out, ⟨.writeAll fd (.failure record), out⟩ ∈ t →
    ∀ fds ∈ d, ∀ m ∈ fds.mappings, m.dst ≠ fd
  returned : ∀ w r w', w.Forked sent →
    Relation.ReflTransGen
      (Program.Step (Serving statusRead) (Env fate) (runOnceMode texts sandbox))
      (p, w) (.ret (.inr r), w') →
    r = told texts sandbox stage err detail exitCode
  returns : ∀ w c, w.Forked sent →
    Relation.ReflTransGen
      (Program.Step (Serving statusRead) (Env fate) (runOnceMode texts sandbox)) (p, w) c →
    c.2.sup.child ≠ .running →
    Ends (Serving statusRead) (Env fate) (runOnceMode texts sandbox)
      (· = told texts sandbox stage err detail exitCode) c

/-! ## The parent's programs -/

/-- The calls of the parent's setup. -/
def Sets : Op → Prop
  | .close _ => True
  | .writeFile _ _ => True
  | .write _ => True
  | _ => False

/-- The calls of the supervision. -/
def Supervises : Op → Prop
  | .signalfd _ => True
  | .poll _ _ => True
  | .waitpid _ nohang => nohang = true
  | .readSignal _ => True
  | .pidfdSendSignal _ _ => True
  | _ => False

section Programs

variable {texts : Texts} {sandbox : Parent.Sandbox} {spec spec' : ChildSpec}
  {sync status child : CInt × CInt} {p : Run (Point ⊕ Except Error CInt)}

/-- What the parent keeps of the child. -/
def handle (sync status child : CInt × CInt) : Handle := ⟨child.1, child.2, sync.2, status.1⟩

/-- When none of its own calls fails, the parent comes to the supervision. -/
theorem Forks.within (h : Forks texts sandbox spec sync status child p spec')
    (hpidfd : 0 ≤ child.2) :
    p.Within Sets Works (· = .inl (.wait (handle sync status child) .start)) 7 := by
  have hafter := h.parent.cons_inv.cons_inv.cons_inv.cons_inv.cons_inv.nil_inv
  rcases child with ⟨pid, pidfd⟩
  have hvalid : ¬ pidfd < 0 := Int32.not_lt.2 hpidfd
  rw [hafter]
  change Within Sets Works _ 7 (Prog.bind (Prog.bind (ite (pidfd < 0) _ _) _) _)
  rw [if_neg hvalid]
  refine ⟨trivial, fun _ _ => ⟨trivial, fun _ _ => ⟨trivial, ?_⟩⟩⟩
  rintro (e | _) hworks
  · exact absurd rfl (hworks e)
  refine ⟨trivial, ?_⟩
  rintro (e | _) hworks
  · exact absurd rfl (hworks e)
  refine ⟨trivial, ?_⟩
  rintro (e | _) hworks
  · exact absurd rfl (hworks e)
  refine ⟨trivial, ?_⟩
  rintro (e | _) hworks
  · exact absurd rfl (hworks e)
  exact ⟨trivial, fun _ _ => rfl⟩

/-- The child enters with the ends of the pipes that are its own. -/
theorem Forks.entered (h : Forks texts sandbox spec sync status child p spec') :
    spec' = { spec with syncFd := some sync.1, statusFd := some status.2 } := by
  obtain ⟨k, h⟩ := h.child
  have h := h.cons_inv.cons_inv.cons_inv.cons_inv.cons_inv.cons_inv.cons_inv.cons_inv.nil_inv
  cases h
  rfl

/-- Without an error of its own calls, the supervision returns none. -/
theorem waitForChild_within (childPid pidfd : CInt) (forwardSignals : Bool) (point : WaitPoint) :
    (waitForChild texts childPid pidfd forwardSignals point).Within Supervises Works
      (fun next => ∀ e, next ≠ .inr (.error e)) 2 := by
  rcases point with _ | sfd | sfd
  · refine ⟨trivial, ?_⟩
    rintro (e | sfd) hworks
    · exact absurd rfl (hworks e)
    · exact nofun
  · refine ⟨trivial, ?_⟩
    rintro (e | ready) hworks
    · obtain rfl := hworks e rfl
      exact nofun
    · rcases ready with _ | _
      · exact nofun
      · refine ⟨rfl, fun out _ e heq => ?_⟩
        rcases out with e' | (code | signal | _) <;> cases heq
  · refine ⟨trivial, ?_⟩
    rintro (e | signo) -
    · exact nofun
    · rcases signo with _ | signo
      · exact nofun
      · simp only [Prog.bind]
        by_cases hsignal : signo = SIGCHLD.toUInt32
        · rw [if_pos hsignal]
          exact nofun
        · rw [if_neg hsignal]
          exact ⟨trivial, fun _ _ => nofun⟩

end Programs

/-! ## The configurations of the parent -/

section Configurations

variable (texts : Texts) (sandbox : Parent.Sandbox) (child : Handle) (fate : Fate)
  (stage : Child.Stage) (err detail exitCode : CInt)

/-- What the parent does with what a stretch of the supervision returns. -/
def behind : WaitPoint ⊕ Except Error CInt → Run (Point ⊕ Except Error CInt)
  | .inl point => pure (.inl (.wait child point))
  | .inr result => do
    let result ← endSetup texts sandbox child result
    let result ← finish result
    pure (.inr result)

theorem runOnceMode_wait (point : WaitPoint) : runOnceMode texts sandbox (.wait child point) =
    waitForChild texts child.pid child.pidfd sandbox.forwardSignals point >>=
      behind texts sandbox child := by
  refine congrArg (Prog.bind _) ?_
  funext next
  rcases next with point | result <;> rfl

/-- What the parent makes of the record of a failure. -/
theorem decodeRecord_new : decodeRecord texts sandbox (some (.new stage err detail exitCode)) =
    some (.childSetup stage err detail exitCode
      (formatChildFailure texts (.new stage err detail exitCode) sandbox)) := by
  unfold decodeRecord ChildFailure.new
  dsimp only
  rw [if_neg (not_not.2 rfl), Child.Stage.fromU16_toU16]
  rfl

theorem behind_ok (code : CInt) : behind texts sandbox child (.inr (.ok code)) =
    .call (.readStatus child.statusRead) fun record =>
      .call (.threadUnblock supervisionSignalMask) fun _ =>
        .ret (.inr ((decodeRecord texts sandbox record).elim (.ok code) .error)) := by
  refine congrArg (Prog.call _) ?_
  funext record
  simp only [Prog.bind, pure_eq]
  cases decodeRecord texts sandbox record <;> rfl

/-- The pipe and what is still to be sent are the record; nothing is when the child has ended. -/
structure Carries (w : World) : Prop where
  record : w.pipe ++ w.unsent = [.failure (.new stage err detail exitCode)]
  sent : w.sup.child ≠ .running → w.unsent = []

/-- The configurations that the parent comes to, with a rank. -/
inductive On : Run (Point ⊕ Except Error CInt) × World → ℕ → Prop
  | setup {p : Run (Point ⊕ Except Error CInt)} {w : World} {n : ℕ} :
      p.Within Sets Works (· = .inl (.wait child .start)) n → w.sup.Unreaped fate →
      Carries stage err detail exitCode w → On (p, w) (w.sup.rank + (n + 15))
  | supervise {p : Prog Op Op.Out (WaitPoint ⊕ Except Error CInt)} {w : World} {n m : ℕ} :
      At texts child.pid child.pidfd sandbox.forwardSignals fate (p, w.sup) n →
      p.Within Supervises Works (fun next => ∀ e, next ≠ .inr (.error e)) m →
      (∀ code, p = .ret (.inr (.ok code)) → w.sup.child ≠ .running) →
      Carries stage err detail exitCode w → On (p >>= behind texts sandbox child, w) (n + 3)
  | unblock {w : World} :
      On (.call (.threadUnblock supervisionSignalMask) fun _ =>
        .ret (.inr (told texts sandbox stage err detail exitCode)), w) (w.sup.rank + 2)
  | done {w : World} :
      On (.ret (.inr (told texts sandbox stage err detail exitCode)), w) (w.sup.rank + 1)

variable {texts sandbox child fate stage err detail exitCode}

theorem Carries.env {w w' : World} (h : Carries stage err detail exitCode w)
    (henv : Env fate w w') : Carries stage err detail exitCode w' := by
  cases henv with
  | moves hmoves hends =>
    refine ⟨h.record, fun hended => ?_⟩
    by_cases hrunning : w.sup.child = .running
    · exact hends hrunning hended
    · exact h.sent hrunning
  | sends hrunning hunsent =>
    refine ⟨?_, fun hended => absurd hrunning hended⟩
    rw [← h.record, hunsent, List.append_assoc]
    rfl

/-- When the child has ended, the record is in the pipe. -/
theorem Carries.pipe {w : World} (h : Carries stage err detail exitCode w)
    (hended : w.sup.child ≠ .running) : w.pipe = [.failure (.new stage err detail exitCode)] := by
  rw [← h.record, h.sent hended, List.append_nil]

theorem env_ended {sup sup' : Parent.World} (h : Parent.Env fate sup sup')
    (hended : sup.child ≠ .running) : sup'.child ≠ .running := by
  cases h with
  | arrives => exact hended
  | ends => exact nofun
  | reaped => exact nofun

theorem answers_ended {sup sup' : Parent.World} {op : Op} {out : op.Out}
    (h : Parent.Answers sup op out sup') (hended : sup'.child ≠ .running) :
    sup.child ≠ .running := by
  cases h with
  | reaps hzombie =>
    rw [hzombie]
    exact nofun
  | _ => exact hended

theorem at_rank_le {p : Prog Op Op.Out (WaitPoint ⊕ Except Error CInt)} {sup : Parent.World}
    {n : ℕ} (h : At texts child.pid child.pidfd sandbox.forwardSignals fate (p, sup) n) :
    sup.rank ≤ n := by
  cases h <;> omega

/-- The supervision learns a status only from a child that has ended. -/
theorem at_ok_ended {p : Prog Op Op.Out (WaitPoint ⊕ Except Error CInt)} {sup sup' : Parent.World}
    {n : ℕ} (h : At texts child.pid child.pidfd sandbox.forwardSignals fate (p, sup) n)
    {op : Op} {k : op.Out → Prog Op Op.Out (WaitPoint ⊕ Except Error CInt)} (hp : p = .call op k)
    {out : op.Out} (hans : Parent.Answers sup op out sup') {code : CInt}
    (hk : k out = .ret (.inr (.ok code))) : sup'.child ≠ .running := by
  cases h with
  | start =>
    cases hp
    rcases out with e | sfd <;> cases hk
  | goPoll => cases hp
  | poll sfd =>
    cases hp
    rcases out with e | (_ | _)
    · simp only [Prog.bind] at hk
      split_ifs at hk <;> cases hk
    · cases hk
    · cases hk
  | wait sfd hzombie =>
    cases hp
    cases hans with
    | stillAlive => cases hk
    | reaps =>
      intro hrunning
      cases hrunning
    | noChild => cases hk
  | goDrain => cases hp
  | drain sfd =>
    cases hp
    rcases out with e | (_ | signo)
    · cases hk
    · cases hk
    · simp only [Prog.bind] at hk
      split_ifs at hk <;> cases hk
  | send =>
    cases hp
    cases hk
  | done => cases hp

theorem sets_inv {statusRead : CInt} {w w' : World} {op : Op} {out : op.Out} (hop : Sets op)
    (h : Answers statusRead w op out w') : w' = w := by
  cases h with
  | supervise hans => cases hans <;> exact hop.elim
  | close => rfl
  | writeFile => rfl
  | write => rfl
  | _ => exact hop.elim

theorem supervises_inv {statusRead : CInt} {w w' : World} {op : Op} {out : op.Out}
    (hop : Supervises op) (h : Answers statusRead w op out w') :
    ∃ sup, Parent.Answers w.sup op out sup ∧ w' = { w with sup := sup } := by
  cases h with
  | supervise hans => exact ⟨_, hans, rfl⟩
  | reaps => cases hop
  | waitFailed => cases hop
  | _ => exact hop.elim

variable (texts sandbox child fate stage err detail exitCode) in
/-- A step to a configuration of the parent, of a lower rank once the child has ended. -/
def GoesTo (w : World) (n : ℕ) (c : Run (Point ⊕ Except Error CInt) × World) : Prop :=
  ∃ m, On texts sandbox child fate stage err detail exitCode c m ∧
    (w.sup.child ≠ .running → m < n)

/-- What happens between the calls. -/
theorem On.env (hdec : fate.Decodable) {p : Run (Point ⊕ Except Error CInt)} {w w' : World}
    {n : ℕ} (hon : On texts sandbox child fate stage err detail exitCode (p, w) n)
    (h : Env fate w w') :
    GoesTo texts sandbox child fate stage err detail exitCode w n (p, w') := by
  have hlower : ∀ k, w.sup.child ≠ .running → w'.sup.rank + k < w.sup.rank + k := by
    intro k hended
    cases h with
    | moves hmoves => exact Nat.add_lt_add_right ((hmoves.rank_le hdec).2 hended).1 k
    | sends hrunning => exact absurd hrunning hended
  cases hon with
  | setup hwithin hunreaped hcarries =>
    refine ⟨_, .setup hwithin ?_ (hcarries.env h), hlower _⟩
    cases h with
    | moves hmoves => exact hmoves.unreaped hdec hunreaped
    | sends => exact hunreaped
  | supervise hat hwithin hok hcarries =>
    have hcarries' := hcarries.env h
    cases h with
    | moves hmoves =>
      obtain ⟨m, hat', hlt⟩ := hat.step hdec (.env hmoves)
      refine ⟨_, .supervise hat' hwithin (fun code hp => env_ended hmoves (hok code hp)) hcarries',
        fun hended => Nat.add_lt_add_right (hlt hended) 3⟩
    | sends hrunning =>
      exact ⟨_, .supervise hat hwithin hok hcarries', fun hended => absurd hrunning hended⟩
  | unblock => exact ⟨_, .unblock, hlower 2⟩
  | done => exact ⟨_, .done, hlower 1⟩

/-- Every step of the parent leads to one of its configurations. -/
theorem On.step (hdec : fate.Decodable) {c c' : Run (Point ⊕ Except Error CInt) × World} {n : ℕ}
    (hon : On texts sandbox child fate stage err detail exitCode c n)
    (h : Program.Step (Serving child.statusRead) (Env fate) (runOnceMode texts sandbox) c c') :
    GoesTo texts sandbox child fate stage err detail exitCode c.2 n c' := by
  cases hon with
  | @setup p w n hwithin hunreaped hcarries =>
    rcases p with next | ⟨op, k⟩
    · obtain rfl := within_ret.1 hwithin
      rcases h.inl_inv with ⟨w', henv, rfl⟩ | rfl
      · exact (On.setup hwithin hunreaped hcarries).env hdec henv
      · rw [runOnceMode_wait]
        refine ⟨_, .supervise (.start hunreaped) (waitForChild_within _ _ _ _) ?_ hcarries,
          fun _ => by omega⟩
        exact fun code hp => nomatch hp
    · rcases h.call_inv with ⟨w', henv, rfl⟩ | ⟨out, w', ⟨hans, hworks⟩, rfl⟩
      · exact (On.setup hwithin hunreaped hcarries).env hdec henv
      · obtain ⟨m, rfl, hop, hnext⟩ := hwithin.call_inv
        obtain rfl := sets_inv hop hans
        exact ⟨_, .setup (hnext out hworks) hunreaped hcarries, fun _ => by omega⟩
  | @supervise p w n m hat hwithin hok hcarries =>
    rcases p with (point | result) | ⟨op, k⟩
    · rcases Step.inl_inv h with ⟨w', henv, rfl⟩ | rfl
      · exact (On.supervise hat hwithin hok hcarries).env hdec henv
      · rw [runOnceMode_wait]
        obtain ⟨m', hat', hlt⟩ := hat.step hdec .again
        refine ⟨_, .supervise hat' (waitForChild_within _ _ _ _) ?_ hcarries,
          fun hended => Nat.add_lt_add_right (hlt hended) 3⟩
        rcases point with _ | sfd | sfd <;> exact fun code hp => nomatch hp
    · rcases result with e | code
      · exact absurd rfl (within_ret.1 hwithin e)
      · change Program.Step _ _ _ (behind texts sandbox child (.inr (.ok code)), w) c' at h
        rw [behind_ok] at h
        rcases Step.call_inv h with ⟨w', henv, rfl⟩ | ⟨out, w', ⟨hans, -⟩, rfl⟩
        · rw [← behind_ok]
          exact (On.supervise hat hwithin hok hcarries).env hdec henv
        · have hrank := at_rank_le hat
          have hpipe := hcarries.pipe (hok code rfl)
          cases hans with
          | supervise hans => cases hans
          | record hrecord =>
            rw [hpipe] at hrecord
            cases hrecord
            rw [decodeRecord_new]
            exact ⟨_, .unblock, fun _ => show w.sup.rank + 2 < n + 3 by omega⟩
          | garbage _ hgarbage hnot =>
            rw [hpipe] at hgarbage
            cases hgarbage
            exact absurd rfl (hnot _)
          | eof hempty =>
            rw [hpipe] at hempty
            cases hempty
    · rcases Step.call_inv h with ⟨w', henv, rfl⟩ | ⟨out, w', ⟨hans, hworks⟩, rfl⟩
      · exact (On.supervise hat hwithin hok hcarries).env hdec henv
      · obtain ⟨m', rfl, hop, hnext⟩ := hwithin.call_inv
        obtain ⟨sup, hsup, rfl⟩ := supervises_inv hop hans
        obtain ⟨l, hat', hlt⟩ := hat.step hdec (.call hsup)
        exact ⟨_, .supervise hat' (hnext out hworks)
          (fun code hk => at_ok_ended hat rfl hsup hk)
          ⟨hcarries.record, fun hended => hcarries.sent (answers_ended hsup hended)⟩,
          fun hended => Nat.add_lt_add_right (hlt hended) 3⟩
  | unblock =>
    rcases h.call_inv with ⟨w', henv, rfl⟩ | ⟨out, w', ⟨hans, -⟩, rfl⟩
    · exact On.unblock.env hdec henv
    · cases hans with
      | supervise hans => cases hans
      | threadUnblock => exact ⟨_, .done, fun _ => by omega⟩
  | done =>
    obtain ⟨w', henv, rfl⟩ := h.inr_inv
    exact On.done.env hdec henv

theorem sets_serves (statusRead : CInt) (w : World) {op : Op} (hop : Sets op) :
    ∃ out w', Serving statusRead w op out w' := by
  rcases op <;> try exact hop.elim
  case close fd => exact ⟨(), w, .close fd, trivial⟩
  case writeFile path content => exact ⟨.ok (), w, .writeFile path content _, nofun⟩
  case write fd => exact ⟨.ok (), w, .write fd _, nofun⟩

theorem at_serves {p : Prog Op Op.Out (WaitPoint ⊕ Except Error CInt)} {w : World} {n : ℕ}
    (h : At texts child.pid child.pidfd sandbox.forwardSignals fate (p, w.sup) n)
    (hended : w.sup.child ≠ .running) {op : Op}
    {k : op.Out → Prog Op Op.Out (WaitPoint ⊕ Except Error CInt)} (hp : p = .call op k) :
    ∃ out w', Serving child.statusRead w op out w' := by
  cases h with
  | start =>
    cases hp
    exact ⟨.ok 0, _, .supervise (.signalfd (.ok 0)), nofun⟩
  | goPoll => cases hp
  | poll =>
    cases hp
    exact ⟨.ok true, _, .supervise (.ready hended), nofun⟩
  | wait sfd hzombie =>
    cases hp
    exact ⟨_, _, .supervise (.reaps hzombie), trivial⟩
  | goDrain => cases hp
  | drain =>
    cases hp
    exact ⟨.error 0, _, .supervise (.readFailed 0), trivial⟩
  | send =>
    cases hp
    exact ⟨.ok (), _, .supervise (.send (.ok ())), trivial⟩
  | done => cases hp

/-- Once the child has ended, the parent is never stuck. -/
theorem On.progress {c : Run (Point ⊕ Except Error CInt) × World} {n : ℕ}
    (hon : On texts sandbox child fate stage err detail exitCode c n)
    (hended : c.2.sup.child ≠ .running) :
    (∃ r w, c = (.ret (.inr r), w) ∧ r = told texts sandbox stage err detail exitCode) ∨
      ∃ c', Program.Step (Serving child.statusRead) (Env fate) (runOnceMode texts sandbox)
        c c' := by
  cases hon with
  | @setup p w n hwithin =>
    rcases p with next | ⟨op, k⟩
    · obtain rfl := within_ret.1 hwithin
      exact .inr ⟨_, .again⟩
    · obtain ⟨m, rfl, hop, -⟩ := hwithin.call_inv
      obtain ⟨out, w', hserves⟩ := sets_serves child.statusRead w hop
      exact .inr ⟨_, .call hserves⟩
  | @supervise p w n m hat hwithin hok hcarries =>
    rcases p with (point | result) | ⟨op, k⟩
    · exact .inr ⟨_, .again⟩
    · rcases result with e | code
      · exact absurd rfl (within_ret.1 hwithin e)
      · rw [ret_bind, behind_ok]
        exact .inr ⟨_, .call ⟨.record (hcarries.pipe hended), trivial⟩⟩
    · obtain ⟨out, w', hserves⟩ := at_serves hat hended rfl
      exact .inr ⟨_, .call hserves⟩
  | unblock => exact .inr ⟨_, .call ⟨.threadUnblock _, trivial⟩⟩
  | done => exact .inl ⟨_, _, rfl, rfl⟩

/-- What the parent returns is the failure. -/
theorem On.returned {r : Except Error CInt} {w : World} {n : ℕ}
    (hon : On texts sandbox child fate stage err detail exitCode (.ret (.inr r), w) n) :
    r = told texts sandbox stage err detail exitCode := by
  generalize hc : (Prog.ret (Sum.inr r), w) = c at hon
  cases hon with
  | setup hwithin =>
    cases hc
    cases within_ret.1 hwithin
  | @supervise p _ _ _ _ hwithin =>
    rcases p with (point | (e | code)) | ⟨op, k⟩
    · cases hc
    · exact absurd rfl (within_ret.1 hwithin e)
    · rw [ret_bind, behind_ok] at hc
      cases hc
    · cases hc
  | unblock => cases hc
  | done =>
    cases hc
    rfl

theorem step_ended {statusRead : CInt} {c c' : Run (Point ⊕ Except Error CInt) × World}
    (h : Program.Step (Serving statusRead) (Env fate) (runOnceMode texts sandbox) c c')
    (hended : c.2.sup.child ≠ .running) : c'.2.sup.child ≠ .running := by
  cases h with
  | env henv =>
    cases henv with
    | moves hmoves => exact env_ended hmoves hended
    | sends => exact hended
  | call hserves =>
    cases hserves.1 with
    | supervise hans =>
      cases hans with
      | reaps => exact nofun
      | _ => exact hended
    | reaps => exact nofun
    | _ => exact hended
  | again => exact hended

/-- From any of its configurations, the parent returns the failure once the child has ended. -/
theorem On.ends (hdec : fate.Decodable) {c : Run (Point ⊕ Except Error CInt) × World} {n : ℕ}
    (hon : On texts sandbox child fate stage err detail exitCode c n)
    (hended : c.2.sup.child ≠ .running) :
    Ends (Serving child.statusRead) (Env fate) (runOnceMode texts sandbox)
      (· = told texts sandbox stage err detail exitCode) c := by
  refine ends_of_rank (fun c n => On texts sandbox child fate stage err detail exitCode c n ∧
    c.2.sup.child ≠ .running) ?_ ⟨hon, hended⟩
  rintro c n ⟨hon, hended⟩
  rcases hon.progress hended with hdone | hstep
  · exact .inl hdone
  · refine .inr ⟨hstep, fun c' hc' => ?_⟩
    obtain ⟨m, hm, hlt⟩ := hon.step hdec hc'
    exact ⟨m, hlt hended, hm, step_ended hc' hended⟩

/-- The run lemma: all that the parent comes to are its configurations. -/
theorem on_of_reach (hdec : fate.Decodable) {p : Run (Point ⊕ Except Error CInt)} {w : World}
    {n : ℕ} (hwithin : p.Within Sets Works (· = .inl (.wait child .start)) n)
    (hforked : w.Forked [.failure (.new stage err detail exitCode)])
    {c : Run (Point ⊕ Except Error CInt) × World}
    (hreach : Relation.ReflTransGen
      (Program.Step (Serving child.statusRead) (Env fate) (runOnceMode texts sandbox)) (p, w) c) :
    ∃ m, On texts sandbox child fate stage err detail exitCode c m := by
  induction hreach with
  | refl =>
    refine ⟨_, .setup hwithin (.inl hforked.running) ⟨?_, fun h => absurd hforked.running h⟩⟩
    rw [hforked.empty, hforked.unsent]
    rfl
  | tail _ hstep ih =>
    obtain ⟨m, hon⟩ := ih
    obtain ⟨m', hon', -⟩ := hon.step hdec hstep
    exact ⟨m', hon'⟩

end Configurations

/-! ## The failure is delivered -/

section Pipe

variable {File : Type} {pipe : File} {sync status : CInt × CInt} {table : Table File}

/-- The child enters with the write end open. -/
theorem Piped.entered_get (h : Piped pipe sync status table)
    (filters : List (List Bpf.SockFilter)) :
    (entered sync status table filters).table.get status.2 = some ⟨pipe, true⟩ := by
  unfold entered
  dsimp only
  rw [Child.close_get _ h.readEnd, Child.close_get _ h.syncWrite, h.writeEnd]

/-- What is about the status descriptor's number in the spec of a sandbox are its mappings. -/
theorem Piped.sparing (h : Piped pipe sync status table) {spec : ChildSpec}
    {d : Option FileDescriptors} (hfds : spec.fds = (d.map FileDescriptors.prepare).getD default)
    (hcompletion : spec.completion = none)
    (hdst : ∀ fds ∈ d, ∀ m ∈ fds.mappings, m.dst ≠ status.2)
    (hseccomp : ∀ s ∈ spec.seccomp, LetsWrite s.program status.2 RECORD_SIZE) :
    Child.Sparing { spec with syncFd := some sync.1, statusFd := some status.2 } status.2 where
  nonneg := by
    by_contra hneg
    have hnone := table.get_neg status.2 (Int32.not_le.1 hneg)
    rw [h.writeEnd] at hnone
    cases hnone
  status := rfl
  sync := by
    rintro _ ⟨⟩
    exact h.syncRead
  actions := by
    dsimp only
    rw [hfds]
    rcases d with _ | fds
    · exact fun _ h => absurd h List.not_mem_nil
    · intro action haction
      obtain ⟨m, hm, rfl⟩ := List.mem_map.1 haction
      exact hdst fds rfl m hm
  seccomp := hseccomp
  completion := hcompletion

end Pipe

/-- No failure is lost where no mapping is to the status descriptor's number, the filters let the
record be written, the child comes to its exit, and the parent's own calls do not fail. -/
theorem failure_delivered {texts : Texts} {sandbox : Parent.Sandbox} {spec spec' : ChildSpec}
    {sync status child : CInt × CInt} {p : Run (Point ⊕ Except Error CInt)}
    (hforks : Forks texts sandbox spec sync status child p spec') (hpidfd : 0 ≤ child.2)
    {d : Option FileDescriptors} (hfds : spec.fds = (d.map FileDescriptors.prepare).getD default)
    (hcompletion : spec.completion = none) {File : Type} {pipe : File} {table : Table File}
    (hpiped : Piped pipe sync status table) {filters : List (List Bpf.SockFilter)}
    {target : Target} {t : Child.Trace} {code : CInt} {ended : Process File}
    (hrun : Runs Prim.Final (Child.run target spec') t (.left (.exit code)))
    (hserves : Answered (Serves pipe) (entered sync status table filters) t ended) {fate : Fate}
    (hfate : fate.Decodable) (hdst : ∀ fds ∈ d, ∀ m ∈ fds.mappings, m.dst ≠ status.2)
    (hfilters : ∀ program ∈ filters, LetsWrite program status.2 RECORD_SIZE)
    (hseccomp : ∀ s ∈ spec.seccomp, LetsWrite s.program status.2 RECORD_SIZE) :
    ∃ stage err detail exitCode,
      Fails target spec' t (.new stage err detail exitCode) ∧
      Delivered texts sandbox status.1 fate d p t ended.sent stage err detail exitCode := by
  obtain rfl := hforks.entered
  have hopen := hpiped.entered_get filters
  obtain ⟨stage, err, detail, exitCode, hfails, hsent, hrecords⟩ :=
    Child.sent_record (hpiped.sparing hfds hcompletion hdst hseccomp) hrun
      ⟨⟨_, hopen, rfl⟩, hfilters, rfl⟩ hserves
  have hwithin := hforks.within hpidfd
  refine ⟨stage, err, detail, exitCode, hfails, hsent, ?_, ?_, ?_⟩
  · rintro fd record out hmem fds hd m hm rfl
    exact hdst fds hd m hm (hrecords _ record out hmem)
  · intro w r w' hforked hreach
    rw [hsent] at hforked
    obtain ⟨m, hon⟩ := on_of_reach hfate hwithin hforked hreach
    exact hon.returned
  · intro w c hforked hreach hended
    rw [hsent] at hforked
    obtain ⟨m, hon⟩ := on_of_reach hfate hwithin hforked hreach
    exact hon.ends hfate hended

/-! A sandbox with one mapping, whose command does not exist. -/

def mappedTo (dst : CInt) : FileDescriptors := ⟨[⟨0, dst⟩], false⟩

/-- The program that allows everything. -/
def allowAll : Child.SeccompSpec := ⟨[⟨Kafel.BPF_RET_K, 0, 0, Kafel.Libc.SECCOMP_RET_ALLOW⟩], 1⟩

def onceSpec (dst : CInt) : ChildSpec :=
  { bareSpec with fds := (mappedTo dst).prepare, seccomp := some allowAll, cwd := some "/" }

/-- The pipes are 3 to 6, and `true` is the file of the status pipe. -/
def pipesTable : Table Bool :=
  .ofList [(0, ⟨false, false⟩), (3, ⟨false, false⟩), (4, ⟨false, false⟩), (5, ⟨true, true⟩),
    (6, ⟨true, true⟩)]

def notFound : ChildFailure := .new .exec Child.ENOENT 0 Child.EXIT_COMMAND_NOT_FOUND

def missingCommand (dst : CInt) : Child.Trace :=
  [⟨.readByte 3, .ok ()⟩, ⟨.close 3, .ok ()⟩, ⟨.prctl .dumpable 0, .ok ()⟩, ⟨.dup2 0 dst, .ok ()⟩,
    ⟨.installSeccomp allowAll, .ok ()⟩, ⟨.chdir "/", .ok ()⟩,
    ⟨.execve ⟨"true", ["true"]⟩ .environ, Child.ENOENT⟩, ⟨.writeAll 6 (.failure notFound), .ok ()⟩]

def enteredSpec (dst : CInt) : ChildSpec :=
  { onceSpec dst with syncFd := some 3, statusFd := some 6 }

theorem pipesTable_piped : Piped true (3, 4) (5, 6) pipesTable :=
  ⟨rfl, by decide, by decide, by decide⟩

theorem once_forks (dst : CInt) :
    ∃ p, Forks silentTexts bareSandbox (onceSpec dst) (3, 4) (5, 6) (100, 7) p (enteredSpec dst) :=
  ⟨_, .cons (.cons (.cons (.cons (.cons (.nil _))))),
    _, .cons (.cons (.cons (.cons (.cons (.cons (.cons (.cons (.nil _))))))))⟩

theorem missingCommand_performs {dst : CInt} (hdst : 0 ≠ dst) :
    Performs (Child.plan .x86 (enteredSpec dst)) ((missingCommand dst).take 6) none := by
  have hplan : Child.plan .x86 (enteredSpec dst) =
      [.call (.readByte 3) (Child.failed .syncWait 0), .call (.close 3) (Child.failed .syncWait 0),
        .call (.prctl .dumpable 0) (Child.failed .dumpable 0),
        .call (.dup2 0 dst) (Child.failed .fd 0),
        .call (.installSeccomp allowAll) (Child.failed .seccomp 0),
        .call (.chdir "/") (Child.failed .cwd 0)] := by
    unfold Child.plan Child.setupStages Child.completionStage
    have hactions : Child.actionChecks (enteredSpec dst).fds.actions =
        [.call (.dup2 0 dst) (Child.failed .fd 0)] := if_pos hdst
    rw [hactions]
    rfl
  rw [hplan]
  exact .passed rfl (.passed rfl (.passed rfl (.passed rfl (.passed rfl (.passed rfl .nil)))))

theorem missingCommand_runs {dst : CInt} (hdst : 0 ≠ dst) :
    Runs Prim.Final (Child.run .x86 (enteredSpec dst)) (missingCommand dst)
      (.left (.exit Child.EXIT_COMMAND_NOT_FOUND)) := by
  rw [Child.run_eq]
  have hsetup : Runs Prim.Final (attempts (Child.plan .x86 (enteredSpec dst)) >>=
      (Child.Reporter.mk (some 6)).stop) ((missingCommand dst).take 6 ++ []) (.returned ()) :=
    (missingCommand_performs hdst).runs.bind (.ret ())
  have hexec : Runs Prim.Final (Child.execStage (enteredSpec dst)) ((missingCommand dst).drop 6)
      (.left (.exit Child.EXIT_COMMAND_NOT_FOUND)) :=
    .call _ _ _ (.call _ _ _ (.left _ _ trivial))
  exact hsetup.bind hexec

theorem missingCommand_fails {dst : CInt} (hdst : 0 ≠ dst) :
    Fails .x86 (enteredSpec dst) (missingCommand dst) notFound :=
  .exec (missingCommand_performs hdst)

theorem allowAll_letsWrite (fd : CInt) (size : UInt64) : LetsWrite allowAll.program fd size :=
  fun _ _ => ⟨_, rfl, .inl (by decide)⟩

/-- With the mapping to a descriptor of its own, the failed `execve` is told. -/
theorem kept_delivered : ∃ p ended stage err detail exitCode,
    Fails .x86 (enteredSpec 7) (missingCommand 7) (.new stage err detail exitCode) ∧
    Delivered silentTexts bareSandbox 5 ⟨.exited Child.EXIT_COMMAND_NOT_FOUND, false⟩
      (some (mappedTo 7)) p (missingCommand 7) ended stage err detail exitCode := by
  obtain ⟨p, hforks⟩ := once_forks 7
  have hserves : Answered (Serves true) (entered (3, 4) (5, 6) pipesTable [])
      (missingCommand 7) _ :=
    .cons (.aside _ trivial fun _ _ => rfl) (.cons (.fds (.close rfl))
      (.cons (.aside _ trivial fun _ _ => rfl) (.cons (.fds (.dup2 (by decide) rfl (by decide)))
      (.cons .installed (.cons (.aside _ trivial fun _ _ => rfl)
      (.cons (.aside _ trivial fun _ _ => rfl) (.cons (.written rfl rfl) (.nil _))))))))
  refine ⟨p, _, failure_delivered hforks (by decide) rfl rfl pipesTable_piped
    (missingCommand_runs (by decide)) hserves ⟨⟨_, rfl⟩, rfl⟩ ?_ ?_ ?_⟩
  · rintro _ ⟨⟩
    decide
  · exact fun _ h => absurd h List.not_mem_nil
  · rintro _ ⟨⟩
    exact allowAll_letsWrite 6 RECORD_SIZE

/-- With the mapping to the status descriptor's number, which is accepted like any other, the record
goes to the file of descriptor 0, and the parent returns an exit code. -/
theorem stolen_not_delivered :
    Sandbox.checkDestinations [] (mappedTo 6).mappings = .ok () ∧
    ∃ p ended, Forks silentTexts bareSandbox (onceSpec 6) (3, 4) (5, 6) (100, 7) p (enteredSpec 6) ∧
      Runs Prim.Final (Child.run .x86 (enteredSpec 6)) (missingCommand 6)
        (.left (.exit Child.EXIT_COMMAND_NOT_FOUND)) ∧
      Answered (Serves true) (entered (3, 4) (5, 6) pipesTable []) (missingCommand 6) ended ∧
      Fails .x86 (enteredSpec 6) (missingCommand 6) notFound ∧
      ¬ Delivered silentTexts bareSandbox 5 ⟨.exited Child.EXIT_COMMAND_NOT_FOUND, false⟩
        (some (mappedTo 6)) p (missingCommand 6) ended.sent .exec Child.ENOENT 0
        Child.EXIT_COMMAND_NOT_FOUND ∧
      ∃ w w', w.Forked ended.sent ∧
        Relation.ReflTransGen
          (Program.Step (Serving 5) (Env ⟨.exited Child.EXIT_COMMAND_NOT_FOUND, false⟩)
            (runOnceMode silentTexts bareSandbox))
          (p, w) (.ret (.inr (.ok Child.EXIT_COMMAND_NOT_FOUND)), w') := by
  have hforks : Forks silentTexts bareSandbox (onceSpec 6) (3, 4) (5, 6) (100, 7) _
      (enteredSpec 6) :=
    ⟨.cons (.cons (.cons (.cons (.cons (.nil _))))),
      _, .cons (.cons (.cons (.cons (.cons (.cons (.cons (.cons (.nil _))))))))⟩
  refine ⟨rfl, _, _, hforks, missingCommand_runs (by decide),
    .cons (.aside _ trivial fun _ _ => rfl) (.cons (.fds (.close rfl))
      (.cons (.aside _ trivial fun _ _ => rfl) (.cons (.fds (.dup2 (by decide) rfl (by decide)))
      (.cons .installed (.cons (.aside _ trivial fun _ _ => rfl)
      (.cons (.aside _ trivial fun _ _ => rfl) (.cons (.elsewhere _ ?_) (.nil _)))))))),
    missingCommand_fails (by decide), ?_, ?_⟩
  · intro o ho hfile
    cases ho
    cases hfile
  · intro h
    have hnone : ([] : List Payload) = [.failure notFound] := h.reaches
    cases hnone
  · refine ⟨⟨⟨.running, [], []⟩, [], []⟩, ⟨⟨.reaped, [], []⟩, [], []⟩, ⟨rfl, rfl, rfl⟩, ?_⟩
    refine .head (.call ⟨.close 3, trivial⟩) (.head (.call ⟨.close 6, trivial⟩) ?_)
    refine .head (.call ⟨.writeFile _ _ (.ok ()), nofun⟩) ?_
    refine .head (.call ⟨.writeFile _ _ (.ok ()), nofun⟩) ?_
    refine .head (.call ⟨.writeFile _ _ (.ok ()), nofun⟩) ?_
    refine .head (.call ⟨.write 4 (.ok ()), nofun⟩) (.head (.call ⟨.close 4, trivial⟩) ?_)
    refine .head .again (.head (.call ⟨.supervise (.signalfd (.ok 8)), nofun⟩) (.head .again ?_))
    refine .head (.env (.moves (.ends rfl) fun _ _ => rfl)) ?_
    refine .head (.call ⟨.supervise (.ready nofun), nofun⟩) ?_
    refine .head (.call ⟨.supervise (.reaps rfl), trivial⟩) ?_
    refine .head (.call ⟨.eof rfl nofun, trivial⟩) (.single (.call ⟨.threadUnblock _, trivial⟩))

end Pnut.Once
