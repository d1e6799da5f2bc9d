import Pnut.Child.Runtime
import Pnut.Lib.Discipline
import Pnut.Proofs.Cleanup

/-!
# The handshake over the sync pipe

`clone3` makes two processes out of one: the parent goes on with the pid of the child, the child
with nothing, and comes to its setup. They share the sync pipe. The two run beside each other in any
order, and each may be killed at any moment. The parent's side is disciplined: the byte is sent when
the id maps are written, and as long as the child waits for it, no call of the parent waits for the
child. The child's side is disciplined too: what comes before the byte does not set anything up.
-/

namespace Pnut.Handshake

open Program Prog
open Child (CInt Errno ChildSpec Prim Runtime Reporter exitImmediately writeStderr)
open Parent

/-- A program of the parent, or of the child up to its setup. -/
abbrev Stretch := Prog Op Op.Out (Point ⊕ Except Error CInt)

/-! ## One side of `clone3` -/

/-- What one process knows of the handshake. -/
structure Side where
  /-- The sync pipe, once it is there: its read end and its write end. -/
  pipe : Option (CInt × CInt)
  /-- The write end is open here. -/
  writes : Bool
  /-- This is the child's side. -/
  isChild : Bool
  /-- The child that was created here. -/
  child : Option CInt
  /-- The files that were written, in their order. -/
  files : List (String × String)
  /-- The byte was sent. -/
  sent : Bool
  /-- The calls since the child is there. -/
  calls : ℕ

def Side.init : Side := ⟨none, false, false, none, [], false, 0⟩

namespace Side

variable (s : Side)

/-- The write end is the descriptor. -/
def IsWriteEnd (fd : CInt) : Prop := s.pipe.map (·.2) = some fd

instance (fd : CInt) : Decidable (s.IsWriteEnd fd) := by
  unfold IsWriteEnd
  infer_instance

/-- What a call changes. The mask is taken back behind `run_parent_setup`, which took the write end
and has dropped it. -/
def effect : (op : Op) → Op.Out op → Side
  | .pipe, .ok ends => { s with pipe := some ends, writes := true }
  | .clone3 _, .ok none => { s with isChild := true }
  | .clone3 _, .ok (some (pid, _)) => { s with child := some pid }
  | .close fd, _ => { s with writes := s.writes && !decide (s.IsWriteEnd fd) }
  | .writeFile path content, .ok _ => { s with files := s.files ++ [(path, content)] }
  | .write fd, .ok _ => { s with sent := s.sent || decide (s.IsWriteEnd fd) }
  | .threadUnblock _, _ => { s with writes := s.isChild && s.writes }
  | _, _ => s

def next (op : Op) (out : Op.Out op) : Side :=
  { s.effect op out with calls := if s.child.isSome then s.calls + 1 else s.calls }

/-- The kernel gives out descriptors that are not in use. -/
def Legal : (op : Op) → Op.Out op → Prop
  | .pipe, .ok ends => ends.1 ≠ ends.2
  | .pipe2Cloexec, .ok ends =>
    ends.1 ≠ ends.2 ∧ ∀ sync, s.pipe = some sync →
      ends.1 ≠ sync.1 ∧ ends.1 ≠ sync.2 ∧ ends.2 ≠ sync.1 ∧ ends.2 ≠ sync.2
  | _, _ => True

/-- The side of a process that has come to its end: its descriptors are closed. -/
def dropped : Side := { s with writes := false }

end Side

/-! ## The system -/

/-- The child: before `clone3`, up to `pnut_child::run`, in it, and behind `execve` or `_exit`. -/
inductive ChildState where
  | unborn
  | start (side : Side) (p : Stretch)
  | setup (side : Side) (released : Bool) (p : Runtime Empty)
  | gone

/-- The two processes. The parent is gone when it has returned, or was killed. -/
structure System where
  parent : Option Stretch
  side : Side
  child : ChildState

/-- The descriptor is the read end of the sync pipe. -/
def Side.IsReadEnd (side : Side) (fd : CInt) : Prop := side.pipe.map (·.1) = some fd

section Step

variable (texts : Texts) (sandbox : Sandbox) (target : Child.Target)

/-- A read of the sync pipe waits: it is empty, and a write end is open. -/
def Waiting (side own : Side) (released : Bool) : Prop :=
  (released = true ∨ side.sent = false) ∧ (side.writes = true ∨ own.writes = true)

/-- One step of one of the two. A read of the sync pipe takes the byte that was sent, or fails; it
waits as long as the pipe is empty and a write end is open. -/
inductive Step : System → System → Prop
  | parent {op : Op} {k : Op.Out op → Stretch} {out : Op.Out op} {side : Side} {c : ChildState} :
      (∀ flags, op ≠ .clone3 flags) → side.Legal op out →
      Step ⟨some (.call op k), side, c⟩ ⟨some (k out), side.next op out, c⟩
  | cloneFailed {flags : UInt64} {k : Op.Out (.clone3 flags) → Stretch} {e : Errno} {side : Side}
      {c : ChildState} :
      Step ⟨some (.call (.clone3 flags) k), side, c⟩
        ⟨some (k (.error e)), side.next (.clone3 flags) (.error e), c⟩
  | clone {flags : UInt64} {k : Op.Out (.clone3 flags) → Stretch} {pid pidfd : CInt} {side : Side} :
      Step ⟨some (.call (.clone3 flags) k), side, .unborn⟩
        ⟨some (k (.ok (some (pid, pidfd)))), side.next (.clone3 flags) (.ok (some (pid, pidfd))),
          .start (side.next (.clone3 flags) (.ok none)) (k (.ok none))⟩
  | again {pt : Point} {side : Side} {c : ChildState} :
      Step ⟨some (.ret (.inl pt)), side, c⟩ ⟨some (runOnceMode texts sandbox pt), side, c⟩
  | parentGone {p : Stretch} {side : Side} {c : ChildState} :
      Step ⟨some p, side, c⟩ ⟨none, side.dropped, c⟩
  | starts {op : Op} {k : Op.Out op → Stretch} {out : Op.Out op} {side : Side}
      {parent : Option Stretch} {own : Side} : own.Legal op out →
      Step ⟨parent, side, .start own (.call op k)⟩
        ⟨parent, side, .start (own.next op out) (k out)⟩
  | enters {spec : ChildSpec} {k : Op.Out (.enterChild spec) → Stretch} {side : Side}
      {parent : Option Stretch} {own : Side} :
      Step ⟨parent, side, .start own (.call (.enterChild spec) k)⟩
        ⟨parent, side, .setup own false (Child.run target spec)⟩
  | released {fd : CInt} {k : Prim.Out (.readByte fd) → Runtime Empty} {side : Side}
      {parent : Option Stretch} {own : Side} : own.IsReadEnd fd → side.sent = true →
      Step ⟨parent, side, .setup own false (.call (.readByte fd) k)⟩
        ⟨parent, side, .setup own true (k (.ok ()))⟩
  | readFails {fd : CInt} {k : Prim.Out (.readByte fd) → Runtime Empty} {side : Side}
      {parent : Option Stretch} {own : Side} {released : Bool} {e : Errno} :
      ¬ Waiting side own released →
      Step ⟨parent, side, .setup own released (.call (.readByte fd) k)⟩
        ⟨parent, side, .setup own released (k (.error e))⟩
  | child {prim : Prim} {k : prim.Out → Runtime Empty} {out : prim.Out} {side : Side}
      {parent : Option Stretch} {own : Side} {released : Bool} :
      (∀ fd, prim = .readByte fd → ¬ own.IsReadEnd fd) →
      Step ⟨parent, side, .setup own released (.call prim k)⟩
        ⟨parent, side, .setup own released (k out)⟩
  | childGone {side : Side} {parent : Option Stretch} {c : ChildState} : c ≠ .unborn →
      Step ⟨parent, side, c⟩ ⟨parent, side, .gone⟩

/-- The system before the first call of `run_once_mode`. -/
def System.init : System := ⟨some (runOnceMode texts sandbox .start), Side.init, .unborn⟩

def Reachable : System → Prop :=
  Relation.ReflTransGen (Step texts sandbox target) (System.init texts sandbox)

end Step

/-! ## The discipline of a side -/

/-- A call that may wait for the child to do something. -/
def MayWait : Op → Prop
  | .waitpid _ nohang => nohang = false
  | .poll _ _ => True
  | .readStatus _ => True
  | _ => False

/-- The files of the id maps of a child, in the order in which they are written. -/
def idMapFiles (sandbox : Sandbox) (pid : CInt) : List (String × String) :=
  [(s!"/proc/{pid}/setgroups", "deny"), (s!"/proc/{pid}/uid_map", sandbox.uidMap.content),
    (s!"/proc/{pid}/gid_map", sandbox.gidMap.content)]

namespace Side

/-- The id maps of the child are written, and nothing else. -/
def Mapped (sandbox : Sandbox) (s : Side) : Prop :=
  ∃ pid, s.child = some pid ∧ s.files = idMapFiles sandbox pid

/-- The child may have to wait for this side. -/
structure Holds (s : Side) : Prop where
  child : s.child.isSome
  writes : s.writes = true

/-- What the handshake asks of each call. -/
def Asks (sandbox : Sandbox) (s : Side) : Op → Prop
  | .pipe => s.child = none
  | .clone3 _ => s.child = none ∧ s.sent = false
  | .enterChild spec => s.writes = false ∧ ∃ fd, s.IsReadEnd fd ∧ spec.syncFd = some fd
  | .write _ => s.Mapped sandbox
  | .writeFile _ _ => s.sent = false
  | _ => True

/-- As long as the child may have to wait for this side, it does not wait for the child, and makes
but a few calls. -/
def Allows (sandbox : Sandbox) (s : Side) (op : Op) : Prop :=
  s.Asks sandbox op ∧ (s.Holds → ¬ MayWait op ∧ s.calls < 7)

end Side

def discipline (sandbox : Sandbox) : Discipline Op Op.Out Side where
  allowed := Side.Allows sandbox
  answers s op out s' := s.Legal op out ∧ s' = s.next op out

section Sides

variable {sandbox : Sandbox} {s : Side} {α : Type} {Q : Side → α → Prop}

theorem obeys_call_iff {op : Op} {k : Op.Out op → Prog Op Op.Out α} :
    (Prog.call op k).Obeys (discipline sandbox) Q s ↔
      s.Allows sandbox op ∧
        ∀ out, s.Legal op out → (k out).Obeys (discipline sandbox) Q (s.next op out) := by
  refine and_congr_right fun _ => forall_congr' fun out => ?_
  constructor
  · exact fun h hlegal => h _ ⟨hlegal, rfl⟩
  · rintro h _ ⟨hlegal, rfl⟩
    exact h hlegal

theorem next_child {op : Op} {out : Op.Out op} (h : ∀ flags, op ≠ .clone3 flags) :
    (s.next op out).child = s.child := by
  cases op with
  | clone3 flags => exact absurd rfl (h flags)
  | pipe | writeFile | write => cases out <;> rfl
  | _ => rfl

theorem next_sent {op : Op} {out : Op.Out op} (h : s.sent = true) :
    (s.next op out).sent = true := by
  cases op with
  | clone3 flags => rcases out with _ | _ | _ <;> exact h
  | write fd => cases out <;> simp [Side.next, Side.effect, h]
  | pipe | writeFile => cases out <;> exact h
  | _ => exact h

/-- The byte goes out behind the id maps, and they stay as they are. -/
theorem next_mapped {op : Op} {out : Op.Out op} (hop : s.Allows sandbox op)
    (hs : s.sent = true → s.Mapped sandbox) (h : (s.next op out).sent = true) :
    (s.next op out).Mapped sandbox := by
  have hask := hop.1
  cases op with
  | clone3 flags =>
    have hsent : s.sent = true := by rcases out with _ | _ | _ <;> exact h
    simp [Side.Asks, hsent] at hask
  | write fd => cases out <;> exact hask
  | writeFile path content =>
    have hsent : s.sent = true := by cases out <;> exact h
    simp [Side.Asks, hsent] at hask
  | pipe => cases out <;> exact hs h
  | _ => exact hs h

end Sides

/-! ## The parent obeys -/

section Parent

variable {texts : Texts} {sandbox : Sandbox} {s : Side}

/-- A call that the handshake asks nothing of. -/
def Free : Op → Prop
  | .pipe => False
  | .clone3 _ => False
  | .enterChild _ => False
  | .write _ => False
  | .writeFile _ _ => False
  | _ => True

/-- A side that cannot be waited for may make all the free calls. -/
theorem obeys_free {α : Type} {p : Prog Op Op.Out α} (hp : p.Always Free)
    (hs : s.writes = false) : p.Obeys (discipline sandbox) (fun s _ => s.writes = false) s := by
  induction p generalizing s with
  | ret => exact hs
  | call op k ih =>
    have hfree : Free op := hp.1
    refine obeys_call_iff.2 ⟨⟨?_, fun h => ?_⟩, fun out _ => ih out (hp.2 out) ?_⟩
    · cases op <;> simp_all [Free, Side.Asks]
    · simp [h.writes] at hs
    · cases op <;> simp_all [Free, Side.next, Side.effect]

/-- A side without a child: before `clone3`, or the child itself. -/
def childless (pipe : Option (CInt × CInt)) (writes isChild : Bool) : Side :=
  ⟨pipe, writes, isChild, none, [], false, 0⟩

/-- The parent behind `clone3`, and so many calls. -/
def forked (r w pid : CInt) (files : List (String × String)) (calls : ℕ) : Side :=
  ⟨some (r, w), true, false, some pid, files, false, calls⟩

theorem childless_call {α : Type} {Q : Side → α → Prop} (pipe : Option (CInt × CInt))
    (writes isChild : Bool) {op : Op} {k : Op.Out op → Prog Op Op.Out α}
    (hask : (childless pipe writes isChild).Asks sandbox op)
    (h : ∀ out, (childless pipe writes isChild).Legal op out →
      (k out).Obeys (discipline sandbox) Q ((childless pipe writes isChild).next op out)) :
    (Prog.call op k).Obeys (discipline sandbox) Q (childless pipe writes isChild) :=
  obeys_call_iff.2 ⟨⟨hask, fun hold => nomatch hold.child⟩, h⟩

theorem forked_call {α : Type} {Q : Side → α → Prop} {r w pid : CInt}
    {files : List (String × String)} (calls : ℕ) {op : Op} {k : Op.Out op → Prog Op Op.Out α}
    (hask : (forked r w pid files calls).Asks sandbox op) (hwaits : ¬ MayWait op)
    (hcalls : calls < 7)
    (h : ∀ out, (forked r w pid files calls).Legal op out →
      (k out).Obeys (discipline sandbox) Q ((forked r w pid files calls).next op out)) :
    (Prog.call op k).Obeys (discipline sandbox) Q (forked r w pid files calls) :=
  obeys_call_iff.2 ⟨⟨hask, fun _ => ⟨hwaits, hcalls⟩⟩, h⟩

theorem effect_close_self {r w : CInt} (hs : s.pipe = some (r, w)) :
    s.effect (.close w) () = { s with writes := false } := by
  simp [Side.effect, Side.IsWriteEnd, hs]

theorem effect_close_other {r w fd : CInt} (hs : s.pipe = some (r, w)) (h : fd ≠ w) :
    s.effect (.close fd) () = s := by
  have hfd : ¬ s.IsWriteEnd fd := by simp [Side.IsWriteEnd, hs, Ne.symm h]
  simp [Side.effect, hfd]

/-- Up to the parent's side of `clone3`. The child's side ends in the setup, with its own write end
closed. -/
theorem spawn_obeys :
    Obeys (discipline sandbox)
      (either (fun _ _ => True)
        fun s child => ∃ r, s = forked r child.syncWrite child.pid [] 2)
      Side.init (spawn texts sandbox) := by
  refine childless_call none false false trivial fun out _ => ?_
  rcases out with message | spec
  · trivial
  refine childless_call none false false rfl fun out hlegal => ?_
  rcases out with e | ⟨r, w⟩
  · trivial
  have hne : r ≠ w := hlegal
  refine childless_call (some (r, w)) true false trivial fun out hlegal => ?_
  rcases out with e | ⟨r', w'⟩
  · trivial
  have hne' : w' ≠ w := (hlegal.2 (r, w) rfl).2.2.2
  refine childless_call (some (r, w)) true false trivial fun out _ => ?_
  rcases out with e | _
  · trivial
  refine childless_call (some (r, w)) true false ⟨rfl, rfl⟩ fun out _ => ?_
  rcases out with e | _ | ⟨pid, pidfd⟩
  · trivial
  · refine childless_call (some (r, w)) true true trivial fun _ _ => ?_
    refine childless_call (some (r, w)) true true trivial fun _ _ => ?_
    rw [Side.next, effect_close_self (r := r) rfl]
    refine childless_call (some (r, w)) false true trivial fun _ _ => ?_
    refine childless_call (some (r, w)) false true ⟨rfl, r, rfl, rfl⟩ fun never => nomatch never
  · show Obeys _ _ (forked r w pid [] 0) (Prog.bind (ite (pidfd < 0) _ _) _)
    split_ifs
    · trivial
    refine forked_call 0 trivial (by simp [MayWait]) (by omega) fun _ _ => ?_
    rw [Side.next, effect_close_other (r := r) rfl hne]
    refine forked_call 1 trivial (by simp [MayWait]) (by omega) fun _ _ => ?_
    rw [Side.next, effect_close_other (r := r) rfl hne']
    exact ⟨r, rfl⟩

theorem writeProc_obeys {r w pid : CInt} {files : List (String × String)} {calls : ℕ}
    (path content : String) (hcalls : calls < 5) :
    Obeys (discipline sandbox)
      (either (fun s _ => ∃ files calls, calls < 6 ∧ s = forked r w pid files calls)
        fun s _ => s = forked r w pid (files ++ [(path, content)]) (calls + 1))
      (forked r w pid files calls) (writeProc path content) := by
  refine forked_call calls rfl (by simp [MayWait]) (by omega) fun out _ => ?_
  rcases out with e | _
  · exact ⟨files, calls + 1, by omega, rfl⟩
  · exact rfl

theorem writeIdMaps_obeys {r w pid : CInt} :
    Obeys (discipline sandbox)
      (either (fun s _ => ∃ files calls, calls < 6 ∧ s = forked r w pid files calls)
        fun s _ => s = forked r w pid (idMapFiles sandbox pid) 5)
      (forked r w pid [] 2) (writeIdMaps pid sandbox.uidMap sandbox.gidMap) := by
  refine Obeys.except_bind (writeProc_obeys _ _ (by omega)) ?_
  rintro _ - rfl
  refine Obeys.except_bind (writeProc_obeys _ _ (by omega)) ?_
  rintro _ - rfl
  exact writeProc_obeys _ _ (by omega)

/-- The child is let go, or the setup has failed, and a few calls may still be made. -/
theorem beginSetup_obeys {r : CInt} {child : Handle} :
    Obeys (discipline sandbox)
      (either (fun s _ => s.writes = false ∨
          ∃ files, s = forked r child.syncWrite child.pid files 6)
        fun s _ => s.writes = false)
      (forked r child.syncWrite child.pid [] 2) (beginSetup sandbox child) := by
  refine Obeys.except_bind (Obeys.lift (writeIdMaps_obeys (r := r))) ?_
  rintro s (e | ⟨⟩) hs
  · obtain ⟨files, calls, hcalls, rfl⟩ := hs
    refine forked_call calls trivial (by simp [MayWait]) (by omega) fun _ _ => ?_
    rw [Side.next, effect_close_self (r := r) rfl]
    refine obeys_call_iff.2 ⟨⟨trivial, fun hold => nomatch hold.writes⟩, fun _ _ => ?_⟩
    exact .inl rfl
  · obtain rfl := hs
    refine forked_call 5 ⟨child.pid, rfl, rfl⟩ (by simp [MayWait]) (by omega) fun out _ => ?_
    rcases out with e | _
    · exact .inr ⟨_, rfl⟩
    refine obeys_call_iff.2 ⟨⟨trivial, fun _ => ⟨by simp [MayWait], by simp [Side.next, forked]⟩⟩,
      fun _ _ => ?_⟩
    rw [Side.next, effect_close_self (r := r) rfl]
    rfl

/-- The parent keeps the discipline from its start on, and behind `clone3` it holds the write end
for the setup only. -/
def pointInv (s : Side) : Point → Prop
  | .start => s = Side.init
  | .wait _ _ => s.writes = false

theorem runOnceMode_keeps :
    (runOnceMode texts sandbox).Keeps (discipline sandbox) pointInv fun _ _ => True := by
  rintro s (_ | ⟨child, point⟩) hs
  · obtain rfl := hs
    refine Obeys.bind (@spawn_obeys texts sandbox) ?_
    rintro s (e | child) hs
    · trivial
    obtain ⟨r, rfl⟩ := hs
    refine Obeys.bind (@beginSetup_obeys sandbox r child) ?_
    rintro s (e | ⟨⟩) hs
    · refine obeys_call_iff.2 ⟨⟨trivial, fun hold => ?_⟩, fun _ _ => trivial⟩
      rcases hs with hs | ⟨files, rfl⟩
      · simp [hold.writes] at hs
      · exact ⟨by simp [MayWait], by simp [forked]⟩
    · exact hs
  · refine Obeys.bind (obeys_free (always_waitForChild (fun _ => trivial) (fun _ _ => trivial)
      trivial (fun _ => trivial) (fun _ _ => trivial) point) hs) ?_
    rintro s (point | result) hs
    · exact hs
    · refine Obeys.bind (obeys_free (always_endSetup (fun _ => trivial) result) hs) ?_
      refine fun s _ hs => obeys_call_iff.2 ⟨⟨trivial, fun hold => ?_⟩, fun _ _ => trivial⟩
      simp [hold.writes] at hs

end Parent

/-! ## The child obeys -/

section Child

variable {syncFd : CInt}

/-- What the child may do before the byte is there: it asks for its parent's death to be signalled,
checks that the parent is there, waits, or reports a failure and exits. -/
def Early (syncFd : CInt) : Prim → Prop
  | .prctl .parentDeathSignal _ => True
  | .getppid => True
  | .readByte fd => fd = syncFd
  | .writeAll _ (.failure _) => True
  | .writeAll _ (.message _) => True
  | .exit _ => True
  | _ => False

/-- The world of the child is whether it has the byte. -/
def childDiscipline (syncFd : CInt) : Discipline Prim Prim.Out Bool where
  allowed released prim := released = false → Early syncFd prim
  answers released prim out released' :=
    released' = (released || match prim, out with
      | .readByte fd, .ok _ => decide (fd = syncFd)
      | _, _ => false)

variable {α : Type} {p : Runtime α} {released : Bool}

/-- With the byte, the child is free. -/
theorem obeys_released :
    p.Obeys (childDiscipline syncFd) (fun released _ => released = true) true := by
  induction p with
  | ret => rfl
  | call prim k ih =>
    refine ⟨(nomatch ·), ?_⟩
    rintro out _ rfl
    exact ih out

theorem obeys_early (hp : p.Always (Early syncFd)) :
    p.Obeys (childDiscipline syncFd) (fun _ _ => True) released := by
  induction p generalizing released with
  | ret => trivial
  | call prim k ih => exact ⟨fun _ => hp.1, fun out _ _ => ih out (hp.2 out)⟩

theorem always_exit {code : CInt} : (exitImmediately code : Runtime α).Always (Early syncFd) :=
  ⟨trivial, fun out => out.elim⟩

theorem always_sendAndStderr (reporter : Reporter) (failure : Child.ChildFailure)
    (stage : Child.Stage) : (reporter.sendAndStderr failure stage).Always (Early syncFd) := by
  have hstderr : (writeStderr stage.message).Always (Early syncFd) := ⟨trivial, fun _ => trivial⟩
  rcases reporter with ⟨_ | fd⟩
  · exact hstderr
  · refine ⟨trivial, fun out => ?_⟩
    rcases out with e | _
    · exact hstderr
    · trivial

theorem always_require (reporter : Reporter) (stage : Child.Stage) (detail : CInt) (c : Bool) :
    (reporter.require stage detail c).Always (Early syncFd) := by
  cases c with
  | true => trivial
  | false =>
    exact always_bind.2 ⟨always_sendAndStderr _ _ _, fun _ _ => always_exit⟩

theorem always_check {reporter : Reporter} {stage : Child.Stage} {detail : CInt}
    {step : Child.Fallible Unit} (hstep : step.run.Always (Early syncFd)) :
    (reporter.check stage detail step).Always (Early syncFd) := by
  refine always_bind.2 ⟨hstep, ?_⟩
  rintro (e | ⟨⟩) -
  · exact always_bind.2 ⟨always_sendAndStderr _ _ _, fun _ _ => always_exit⟩
  · trivial

/-- The wait for the byte: behind it, the child has it. -/
theorem syncWait_obeys {reporter : Reporter} :
    (reporter.check .syncWait 0 do
      Child.readByte syncFd
      Child.Fd.close syncFd).Obeys (childDiscipline syncFd) (fun released _ => released = true)
      released := by
  have hstep : Obeys (childDiscipline syncFd)
      (either (fun _ _ => True) fun released _ => released = true) released (do
        Child.readByte syncFd
        Child.Fd.close syncFd : Child.Fallible Unit) := by
    refine Obeys.except_bind (Q := fun released _ => released = true) ⟨fun _ => rfl, ?_⟩ ?_
    · rintro (e | _) _ rfl
      · trivial
      · simp
    · rintro _ _ rfl
      exact obeys_released.mono fun _ r h => by cases r <;> trivial
  refine Obeys.bind hstep ?_
  rintro _ (e | _) hreleased
  · refine Obeys.bind (obeys_early (always_sendAndStderr _ _ _)) fun released _ _ => ?_
    exact ⟨fun _ => trivial, fun out => out.elim⟩
  · exact hreleased

theorem run_obeys {target : Child.Target} {spec : ChildSpec} (hsync : spec.syncFd = some syncFd) :
    (Child.run target spec).Obeys (childDiscipline syncFd) (fun _ _ => True) released := by
  refine Obeys.bind (obeys_early (always_require _ _ _ _)) fun released _ _ => ?_
  refine Obeys.bind (P := fun _ _ => True) ?_ fun released _ _ => ?_
  · cases spec.process.pdeathsig with
    | none => trivial
    | some sig => exact obeys_early (always_check ⟨trivial, fun _ => trivial⟩)
  refine Obeys.bind (P := fun _ _ => True) ?_ fun released _ _ => ?_
  · cases spec.process.verifyParentAlive with
    | false => trivial
    | true => exact obeys_early ⟨trivial, fun ppid => always_require _ _ _ _⟩
  rw [hsync]
  refine Obeys.bind syncWait_obeys ?_
  rintro _ _ rfl
  exact obeys_released.mono fun _ _ _ => trivial

end Child

/-! ## The invariant of the system -/

section System

variable {texts : Texts} {sandbox : Sandbox} {target : Child.Target}

/-- What is left of a stretch obeys, and so does all that follows it. -/
abbrev StretchObeys (sandbox : Sandbox) (s : Side) (p : Stretch) : Prop :=
  p.Obeys (discipline sandbox) (Loop.resume pointInv fun _ _ => True) s

/-- The child's part. `side` is the parent's side. -/
def ChildInv (sandbox : Sandbox) (side : Side) : ChildState → Prop
  | .unborn => side.child = none
  | .start own p => side.child.isSome ∧ StretchObeys sandbox own p
  | .setup own released p =>
    side.child.isSome ∧ own.writes = false ∧ (released = true → side.sent = true) ∧
      ∃ fd, own.IsReadEnd fd ∧ p.Obeys (childDiscipline fd) (fun _ _ => True) released
  | .gone => side.child.isSome

structure Inv (sandbox : Sandbox) (c : System) : Prop where
  parent : ∀ p, c.parent = some p → StretchObeys sandbox c.side p
  gone : c.parent = none → c.side.writes = false
  mapped : c.side.sent = true → c.side.Mapped sandbox
  child : ChildInv sandbox c.side c.child

/-- The child's part depends on the parent's side by what the parent does not take back. -/
theorem ChildInv.mono {side side' : Side} {c : ChildState} (h : ChildInv sandbox side c)
    (hchild : side'.child = side.child) (hsent : side.sent = true → side'.sent = true) :
    ChildInv sandbox side' c := by
  cases c with
  | unborn => exact hchild.trans h
  | start own p => exact ⟨hchild ▸ h.1, h.2⟩
  | setup own released p => exact ⟨hchild ▸ h.1, h.2.1, fun hr => hsent (h.2.2.1 hr), h.2.2.2⟩
  | gone => exact (congrArg Option.isSome hchild).trans h

theorem inv_init : Inv sandbox (System.init texts sandbox) where
  parent := by
    rintro _ ⟨⟩
    exact runOnceMode_keeps _ _ rfl
  gone := nofun
  mapped := nofun
  child := rfl

/-- The parent makes a call that is not `clone3`. -/
theorem Inv.parent_call {op : Op} {k : Op.Out op → Stretch} {out : Op.Out op} {side : Side}
    {c : ChildState} (h : Inv sandbox ⟨some (.call op k), side, c⟩)
    (hop : ∀ flags, op ≠ .clone3 flags) (hlegal : side.Legal op out) :
    Inv sandbox ⟨some (k out), side.next op out, c⟩ := by
  obtain ⟨hallow, hnext⟩ := obeys_call_iff.1 (h.parent _ rfl)
  refine ⟨?_, nofun, next_mapped hallow h.mapped, h.child.mono (next_child hop) next_sent⟩
  rintro _ ⟨⟩
  exact hnext out hlegal

theorem inv_step {c c' : System} (h : Inv sandbox c) (hstep : Step texts sandbox target c c') :
    Inv sandbox c' := by
  cases hstep with
  | parent hop hlegal => exact h.parent_call hop hlegal
  | @cloneFailed flags k e side c =>
    obtain ⟨hallow, hnext⟩ := obeys_call_iff.1 (h.parent _ rfl)
    refine ⟨?_, nofun, next_mapped hallow h.mapped, h.child.mono rfl next_sent⟩
    rintro _ ⟨⟩
    exact hnext _ trivial
  | @clone flags k pid pidfd side =>
    obtain ⟨hallow, hnext⟩ := obeys_call_iff.1 (h.parent _ rfl)
    refine ⟨?_, nofun, next_mapped hallow h.mapped, rfl, hnext _ trivial⟩
    rintro _ ⟨⟩
    exact hnext _ trivial
  | again =>
    refine ⟨?_, nofun, h.mapped, h.child⟩
    rintro _ ⟨⟩
    exact runOnceMode_keeps _ _ (h.parent _ rfl)
  | parentGone => exact ⟨nofun, fun _ => rfl, h.mapped, h.child.mono rfl id⟩
  | starts hlegal =>
    exact ⟨h.parent, h.gone, h.mapped, h.child.1, (obeys_call_iff.1 h.child.2).2 _ hlegal⟩
  | enters =>
    obtain ⟨hsome, hobeys⟩ := h.child
    obtain ⟨hwrites, fd, hfd, hsync⟩ := (obeys_call_iff.1 hobeys).1.1
    exact ⟨h.parent, h.gone, h.mapped, hsome, hwrites, nofun, fd, hfd, run_obeys hsync⟩
  | released hend hsent =>
    obtain ⟨hsome, hwrites, -, fd, hfd, hobeys⟩ := h.child
    obtain rfl : fd = _ := Option.some.inj (hfd.symm.trans hend)
    refine ⟨h.parent, h.gone, h.mapped, hsome, hwrites, fun _ => hsent, fd, hfd, ?_⟩
    exact hobeys.2 (.ok ()) true (by simp [childDiscipline])
  | readFails =>
    obtain ⟨hsome, hwrites, hrel, fd, hfd, hobeys⟩ := h.child
    exact ⟨h.parent, h.gone, h.mapped, hsome, hwrites, hrel, fd, hfd,
      hobeys.2 _ _ (Bool.or_false _).symm⟩
  | @child prim k out side parent own released hprim =>
    obtain ⟨hsome, hwrites, hrel, fd, hfd, hobeys⟩ := h.child
    refine ⟨h.parent, h.gone, h.mapped, hsome, hwrites, hrel, fd, hfd, hobeys.2 _ _ ?_⟩
    cases prim with
    | readByte fd' =>
      have hne : fd' ≠ fd := by
        rintro rfl
        exact hprim _ rfl hfd
      rcases out with e | _ <;> simp [childDiscipline, hne]
    | _ => simp [childDiscipline]
  | @childGone side parent c hborn =>
    refine ⟨h.parent, h.gone, h.mapped, ?_⟩
    have hchild := h.child
    cases c with
    | unborn => exact absurd rfl hborn
    | start own p => exact hchild.1
    | setup own released p => exact hchild.1
    | gone => exact hchild

theorem inv_reachable {c : System} (h : Reachable texts sandbox target c) : Inv sandbox c := by
  induction h with
  | refl => exact inv_init
  | tail _ hstep ih => exact inv_step ih hstep

/-- The child sets nothing up before its id maps are written. In every state that the two come to,
whatever the order of their steps, and even if one of them is killed: once the child has the byte,
the three files of its id maps have been written with success, in their order, and no other; up to
then its next call is one of the first checks, the wait for the byte or the report of a failure. -/
theorem mapped_before_setup {c : System} (h : Reachable texts sandbox target c) {own : Side}
    {released : Bool} {prim : Prim} {k : prim.Out → Runtime Empty}
    (hchild : c.child = .setup own released (.call prim k)) :
    (released = true → ∃ pid, c.side.child = some pid ∧ c.side.files = idMapFiles sandbox pid) ∧
      (released = false → ∃ fd, own.IsReadEnd fd ∧ Early fd prim) := by
  have hinv := inv_reachable h
  have hsetup := hinv.child
  rw [hchild] at hsetup
  obtain ⟨-, -, hsent, fd, hfd, hobeys⟩ := hsetup
  exact ⟨fun hreleased => hinv.mapped (hsent hreleased), fun hnot => ⟨fd, hfd, hobeys.1 hnot⟩⟩

/-! ## The child is let go -/

/-- The child waits for the byte. -/
def Blocked (c : System) : Prop :=
  ∃ own released fd k, c.child = .setup own released (.call (.readByte fd) k) ∧
    own.IsReadEnd fd ∧ Waiting c.side own released

/-- Steps that are left to the parent, at most, while the child waits. -/
structure Ranked (sandbox : Sandbox) (c : System) (n : ℕ) : Prop where
  inv : Inv sandbox c
  left : Blocked c → 0 < n
  calls : Blocked c → ∀ op k, c.parent = some (.call op k) → 8 ≤ n + c.side.calls

/-- While the child waits, the parent is there, and holds the write end. -/
theorem Inv.holds {c : System} (h : Inv sandbox c) (hblocked : Blocked c) :
    c.side.Holds ∧ ∃ p, c.parent = some p := by
  obtain ⟨own, released, fd, k, hchild, -, -, hwriter⟩ := hblocked
  have hsetup := h.child
  rw [hchild] at hsetup
  have hwrites : c.side.writes = true := hwriter.resolve_right (by simp [hsetup.2.1])
  refine ⟨⟨hsetup.1, hwrites⟩, Option.ne_none_iff_exists'.1 fun hnone => ?_⟩
  simp [h.gone hnone] at hwrites

theorem ranked_step {c c' : System} {n : ℕ} (h : Ranked sandbox c (n + 1)) (hblocked : Blocked c)
    (hstep : Step texts sandbox target c c') : Ranked sandbox c' n := by
  have hinv := inv_step h.inv hstep
  obtain ⟨hold, -⟩ := h.inv.holds hblocked
  have hcalls := h.calls hblocked
  have hnot : ¬ Blocked c' → Ranked sandbox c' n := fun hc' =>
    ⟨hinv, fun hb => absurd hb hc', fun hb => absurd hb hc'⟩
  obtain ⟨own, released, fd, k, hchild, hfd, hwait⟩ := hblocked
  -- a call of the parent takes one of the steps it has left
  have hcall : ∀ {op : Op} {out : Op.Out op} {k : Op.Out op → Stretch} {p : Stretch},
      c.parent = some (.call op k) → c' = ⟨some p, c.side.next op out, c.child⟩ →
      Ranked sandbox c' n := by
    rintro op out k p hp rfl
    have hlt : c.side.calls < 7 := ((obeys_call_iff.1 (h.inv.parent _ hp)).1.2 hold).2
    have hleft := hcalls op k hp
    have hnext : (c.side.next op out).calls = c.side.calls + 1 := if_pos hold.child
    refine ⟨hinv, fun _ => by omega, fun _ _ _ _ => ?_⟩
    show 8 ≤ n + (c.side.next op out).calls
    omega
  cases hstep with
  | parent hop hlegal => exact hcall rfl rfl
  | cloneFailed => exact hcall rfl rfl
  | clone => cases hchild
  | @again pt side c =>
    have hpt : pointInv side pt := h.inv.parent _ rfl
    have hwrites := hold.writes
    cases pt with
    | start =>
      obtain rfl := hpt
      cases hwrites
    | wait => exact absurd (hpt.symm.trans hwrites) Bool.false_ne_true
  | parentGone =>
    exact hnot fun hb => by cases (hinv.holds hb).2.choose_spec
  | starts => cases hchild
  | enters => cases hchild
  | released _ hsent =>
    cases hchild
    rcases hwait.1 with hreleased | hnone
    · cases hreleased
    · exact absurd (hnone.symm.trans hsent) Bool.false_ne_true
  | readFails hnowait =>
    cases hchild
    exact absurd hwait hnowait
  | child hprim =>
    cases hchild
    exact absurd hfd (hprim _ rfl)
  | childGone =>
    refine hnot ?_
    rintro ⟨_, _, _, _, hgone, -⟩
    cases hgone

/-- The parent is there, and its next call does not wait for the child. -/
def ParentReady (c : System) : Prop :=
  ∃ p, c.parent = some p ∧ ∀ op k, p = .call op k → ¬ MayWait op

/-- The parent never waits for a child that waits for it. In every state that the two come to, a
child that waits for the byte is let go within eight steps: whatever they are, the parent is ready
for the next one up to the moment when the byte is there, no write end is open any more, or the
child has ended. -/
theorem let_go {c : System} (h : Reachable texts sandbox target c) :
    Inevitable (Step texts sandbox target) ParentReady (fun c => ¬ Blocked c) 8 c := by
  refine inevitable_of_rank (Ranked sandbox) (fun c hc hb => absurd (hc.left hb) (by omega)) ?_
    ⟨inv_reachable h, fun _ => by omega, fun _ _ _ _ => by omega⟩
  intro c n hc hb
  have hblocked : Blocked c := not_not.1 hb
  refine ⟨?_, fun c' => ranked_step hc hblocked⟩
  obtain ⟨hold, p, hp⟩ := hc.inv.holds hblocked
  refine ⟨p, hp, ?_⟩
  rintro op k rfl
  exact ((obeys_call_iff.1 (hc.inv.parent _ hp)).1.2 hold).1

/-! ## A run of the two -/

section Leads

variable (texts sandbox target) in
/-- Some run from the state leads to one with `P`. -/
def Leads (P : System → Prop) (c : System) : Prop :=
  ∃ c', Relation.ReflTransGen (Step texts sandbox target) c c' ∧ P c'

variable {P : System → Prop} {side own : Side}

theorem Leads.step {c c' : System} (h : Leads texts sandbox target P c')
    (hstep : Step texts sandbox target c c') : Leads texts sandbox target P c := by
  obtain ⟨c'', hreach, hP⟩ := h
  exact ⟨c'', .head hstep hreach, hP⟩

theorem leads_parent {op : Op} {k : Op.Out op → Stretch} {child : ChildState} (out : Op.Out op)
    (hop : ∀ flags, op ≠ .clone3 flags) (hlegal : side.Legal op out)
    (h : Leads texts sandbox target P ⟨some (k out), side.next op out, child⟩) :
    Leads texts sandbox target P ⟨some (.call op k), side, child⟩ :=
  h.step (.parent hop hlegal)

theorem leads_start {op : Op} {k : Op.Out op → Stretch} {parent : Option Stretch}
    (out : Op.Out op) (hlegal : own.Legal op out)
    (h : Leads texts sandbox target P ⟨parent, side, .start (own.next op out) (k out)⟩) :
    Leads texts sandbox target P ⟨parent, side, .start own (.call op k)⟩ :=
  h.step (.starts hlegal)

/-- The parent behind `clone3`, with the child 42. -/
def demoParent : Stretch := do
  Prog.perform (Op.close 3)
  Prog.perform (Op.close 6)
  match ← (beginSetup bareSandbox ⟨42, 7, 4, 5⟩).run with
  | .error e => do
    let result ← finish (.error e)
    pure (.inr result)
  | .ok () => pure (.inl (.wait ⟨42, 7, 4, 5⟩ .start))

/-- What can be reached from where the child waits for the byte, can be reached. -/
theorem leads_init
    (h : Leads silentTexts bareSandbox .x86 P
      ⟨some demoParent, forked 3 4 42 [] 0, .setup (childless (some (3, 4)) false true) false
        (Child.run .x86 { bareSpec with syncFd := some 3, statusFd := some 6 })⟩) :
    Leads silentTexts bareSandbox .x86 P (System.init silentTexts bareSandbox) := by
  refine leads_parent (.ok bareSpec) (by simp) trivial ?_
  refine leads_parent (.ok (3, 4)) (by simp) (by simp [Side.Legal]) ?_
  refine leads_parent (.ok (5, 6)) (by simp) ⟨by simp, ?_⟩ ?_
  · rintro sync ⟨⟩
    simp
  refine leads_parent (.ok ()) (by simp) trivial ?_
  refine Leads.step ?_ (@Step.clone _ _ _ _ _ 42 7 _)
  refine leads_start () trivial ?_
  refine leads_start () trivial ?_
  refine leads_start () trivial ?_
  exact h.step .enters

/-- The child waits for the byte, and is let go. -/
theorem waiting_let_go :
    Leads silentTexts bareSandbox .x86
      (fun c => Blocked c ∧
        Inevitable (Step silentTexts bareSandbox .x86) ParentReady (fun c => ¬ Blocked c) 8 c)
      (System.init silentTexts bareSandbox) := by
  have hwait : Leads silentTexts bareSandbox .x86 Blocked (System.init silentTexts bareSandbox) :=
    leads_init ⟨_, .refl, _, _, _, _, rfl, rfl, .inr rfl, .inl rfl⟩
  obtain ⟨c, hreach, hblocked⟩ := hwait
  exact ⟨c, hreach, hblocked, let_go hreach⟩

/-- The child has the byte, and closes the pipe: the id maps are written. -/
theorem released_mapped :
    Leads silentTexts bareSandbox .x86
      (fun c => (∃ own k, c.child = .setup own true (.call (.close 3) k)) ∧
        ∃ pid, c.side.child = some pid ∧ c.side.files = idMapFiles bareSandbox pid)
      (System.init silentTexts bareSandbox) := by
  have hclose : Leads silentTexts bareSandbox .x86
      (fun c => ∃ own k, c.child = .setup own true (.call (.close 3) k))
      (System.init silentTexts bareSandbox) := by
    refine leads_init ?_
    refine leads_parent () (by simp) trivial ?_
    refine leads_parent () (by simp) trivial ?_
    refine leads_parent (.ok ()) (by simp) trivial ?_
    refine leads_parent (.ok ()) (by simp) trivial ?_
    refine leads_parent (.ok ()) (by simp) trivial ?_
    refine leads_parent (.ok ()) (by simp) trivial ?_
    exact Leads.step ⟨_, .refl, _, _, rfl⟩ (.released rfl rfl)
  obtain ⟨c, hreach, own, k, hchild⟩ := hclose
  refine ⟨c, hreach, ⟨own, k, hchild⟩, ?_⟩
  exact (mapped_before_setup hreach hchild).1 rfl

end Leads

end System

end Pnut.Handshake
