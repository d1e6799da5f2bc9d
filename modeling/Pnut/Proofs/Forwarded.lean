import Pnut.Lib.Discipline
import Pnut.Proofs.Cleanup

/-!
# Signals reach the child

What the supervision reads from the signalfd it hands on at once: the next call sends it to the
child, or kills the child when signals are not forwarded. So in every run, whatever the kernel
answers, the signals that were sent are the signals that were read, each once and in their order.
-/

namespace Pnut.Parent

open Program Prog
open Child (CInt Errno)

/-! ## The signals of a run -/

/-- What becomes of a signal that was read. -/
def delivered (forwardSignals : Bool) (signo : UInt32) : CInt :=
  if forwardSignals then signo.toInt32 else SIGKILL

/-- The signal that a call has read. That a child has ended is not handed on. -/
def takenSignal : Event Op.Out → Option UInt32
  | ⟨.readSignal _, .ok (some signo)⟩ => if signo = SIGCHLD.toUInt32 then none else some signo
  | _ => none

/-- The descriptor that a call has sent a signal to, and the signal. -/
def sentSignal : Event Op.Out → Option (CInt × CInt)
  | ⟨.pidfdSendSignal pidfd signal, _⟩ => some (pidfd, signal)
  | _ => none

def takenSignals (t : List (Event Op.Out)) : List UInt32 := t.filterMap takenSignal

def sentSignals (t : List (Event Op.Out)) : List (CInt × CInt) := t.filterMap sentSignal

/-- The signal that was read last, and not handed on yet. -/
def owed (t : List (Event Op.Out)) : Option UInt32 := t.getLast?.bind takenSignal

/-- The descriptor is the one that was made together with the child. -/
def Cloned (t : List (Event Op.Out)) (pidfd : CInt) : Prop :=
  ∃ flags pid, ⟨.clone3 flags, .ok (some (pid, pidfd))⟩ ∈ t

/-- The signals that were sent are the ones that were read before the one that is owed, and all of
them went to the child. -/
def Forwarded (forwardSignals : Bool) (t : List (Event Op.Out)) : Prop :=
  ∃ done, takenSignals t = done ++ (owed t).toList ∧
    (sentSignals t).map Prod.snd = done.map (delivered forwardSignals) ∧
    ∀ sent ∈ sentSignals t, Cloned t sent.1

/-- An owed signal is sent next, to the child, and nothing else is ever sent. -/
def Hands (forwardSignals : Bool) (t : List (Event Op.Out)) (op : Op) : Prop :=
  match owed t with
  | some signo =>
    ∃ pidfd, Cloned t pidfd ∧ op = .pidfdSendSignal pidfd (delivered forwardSignals signo)
  | none => ∀ pidfd signal, op ≠ .pidfdSendSignal pidfd signal

section Histories

variable {t : List (Event Op.Out)} {event : Event Op.Out} {pidfd : CInt} {forwardSignals : Bool}

@[simp] theorem owed_append : owed (t ++ [event]) = takenSignal event := by
  simp [owed]

theorem takenSignals_append :
    takenSignals (t ++ [event]) = takenSignals t ++ (takenSignal event).toList := by
  cases h : takenSignal event <;> simp [takenSignals, h]

theorem sentSignals_append :
    sentSignals (t ++ [event]) = sentSignals t ++ (sentSignal event).toList := by
  cases h : sentSignal event <;> simp [sentSignals, h]

theorem Cloned.append (h : Cloned t pidfd) (s : List (Event Op.Out)) : Cloned (t ++ s) pidfd := by
  obtain ⟨flags, pid, hmem⟩ := h
  exact ⟨flags, pid, List.mem_append_left s hmem⟩

/-- One call. -/
theorem Forwarded.step {op : Op} (h : Forwarded forwardSignals t)
    (hop : Hands forwardSignals t op) (out : Op.Out op) :
    Forwarded forwardSignals (t ++ [⟨op, out⟩]) := by
  obtain ⟨done, htaken, hsent, hcloned⟩ := h
  unfold Hands at hop
  cases howed : owed t with
  | none =>
    rw [howed] at hop htaken
    have hnone : sentSignal ⟨op, out⟩ = none := by
      cases op with
      | pidfdSendSignal pidfd signal => exact absurd rfl (hop pidfd signal)
      | _ => rfl
    refine ⟨done, ?_, ?_, ?_⟩
    · rw [takenSignals_append, owed_append, htaken, Option.toList_none, List.append_nil]
    · rw [sentSignals_append, hnone, Option.toList_none, List.append_nil, hsent]
    · rw [sentSignals_append, hnone, Option.toList_none, List.append_nil]
      exact fun sent hmem => (hcloned sent hmem).append _
  | some signo =>
    rw [howed] at hop htaken
    obtain ⟨pidfd, hpidfd, rfl⟩ := hop
    refine ⟨done ++ [signo], ?_, ?_, ?_⟩
    · rw [takenSignals_append, owed_append, htaken]
      rfl
    · rw [sentSignals_append, List.map_append, hsent, List.map_append]
      rfl
    · rw [sentSignals_append]
      refine List.forall_mem_append.2 ⟨fun sent hmem => (hcloned sent hmem).append _, ?_⟩
      rintro _ (_ | ⟨_, ⟨⟩⟩)
      exact hpidfd.append _

end Histories

/-! ## The parent hands on what it reads -/

section Parent

variable {texts : Texts} {sandbox : Sandbox} {t : List (Event Op.Out)}

/-- A call that neither reads a signal nor sends one. -/
def Op.Silent : Op → Prop
  | .readSignal _ => False
  | .pidfdSendSignal _ _ => False
  | _ => True

theorem Op.Silent.hands {op : Op} (h : op.Silent) {forwardSignals : Bool} (ht : owed t = none) :
    Hands forwardSignals t op := by
  unfold Hands
  rw [ht]
  rintro pidfd signal rfl
  exact h

theorem Op.Silent.owed {op : Op} (h : op.Silent) (out : Op.Out op) :
    Parent.owed (t ++ [⟨op, out⟩]) = none := by
  rw [owed_append]
  cases op with
  | readSignal => exact h.elim
  | _ => rfl

/-- What silent calls leave behind. -/
theorem obeys_silent {α : Type} {p : Prog Op Op.Out α} {forwardSignals : Bool}
    (hp : p.Always Op.Silent) (ht : owed t = none) :
    p.Obeys (onHistory (Hands forwardSignals))
      (fun t' a => owed t' = none ∧ ∃ s, t' = t ++ s ∧ Runs Op.Final p s (.returned a)) t :=
  obeys_of_always (fun _ _ ht hop => hop.hands ht) (fun _ _ out _ hop => hop.owed out) hp ht

theorem always_spawn : Always Op.Silent (spawn texts sandbox) := by
  refine ⟨trivial, fun out => ?_⟩
  rcases out with message | spec
  · trivial
  refine ⟨trivial, fun out => ?_⟩
  rcases out with e | sync
  · trivial
  refine ⟨trivial, fun out => ?_⟩
  rcases out with e | status
  · trivial
  refine ⟨trivial, fun out => ?_⟩
  rcases out with e | _
  · trivial
  refine ⟨trivial, fun out => ?_⟩
  rcases out with e | _ | ⟨pid, pidfd⟩
  · trivial
  · exact ⟨trivial, fun _ => ⟨trivial, fun _ => ⟨trivial, fun _ => ⟨trivial, fun never =>
      nomatch never⟩⟩⟩⟩
  · show Always Op.Silent (Prog.bind (ite (pidfd < 0) _ _) _)
    split_ifs
    · trivial
    · exact ⟨trivial, fun _ => ⟨trivial, fun _ => trivial⟩⟩

theorem spawn_hands :
    Obeys (onHistory (Hands sandbox.forwardSignals))
      (either (fun t _ => owed t = none) fun t child => owed t = none ∧ Cloned t child.pidfd)
      [] (spawn texts sandbox) := by
  refine (obeys_silent always_spawn rfl).mono ?_
  rintro t (e | child) ⟨ht, s, rfl, hruns⟩
  · exact ht
  · refine ⟨ht, ?_⟩
    rcases spawn_returned hruns with ⟨child', spec, sync, status, hchild, -, hs⟩ | ⟨e, he, -⟩
    · cases hchild
      subst hs
      refine ⟨cloneFlags sandbox.namespaces ||| CLONE_PIDFD, child.pid, ?_⟩
      simp [cloneCalls]
    · cases he

/-- Nothing is owed to the child. -/
def Settled (child : Handle) (t : List (Event Op.Out)) : Prop :=
  owed t = none ∧ Cloned t child.pidfd

theorem settled_call {α : Type} {Q : List (Event Op.Out) → α → Prop} {child : Handle} {op : Op}
    {k : Op.Out op → Prog Op Op.Out α} (hop : op.Silent) (ht : Settled child t)
    (h : ∀ out t', Settled child t' →
      (k out).Obeys (onHistory (Hands sandbox.forwardSignals)) Q t') :
    (Prog.call op k).Obeys (onHistory (Hands sandbox.forwardSignals)) Q t :=
  obeys_onHistory_call.2 ⟨hop.hands ht.1, fun out => h out _ ⟨hop.owed out, ht.2.append _⟩⟩

theorem wait_hands {child : Handle} (point : WaitPoint) (ht : Settled child t) :
    (waitForChild texts child.pid child.pidfd sandbox.forwardSignals point).Obeys
      (onHistory (Hands sandbox.forwardSignals)) (fun t _ => Settled child t) t := by
  rcases point with _ | sfd | sfd
  · refine settled_call trivial ht fun out t' ht' => ?_
    rcases out with e | sfd <;> exact ht'
  · refine settled_call trivial ht fun out t' ht' => ?_
    rcases out with e | _ | _
    · show Obeys _ _ _ (ite _ _ _)
      split_ifs <;> exact ht'
    · exact ht'
    · exact settled_call trivial ht' fun _ _ ht' => ht'
  · refine obeys_onHistory_call.2 ⟨?_, fun out => ?_⟩
    · unfold Hands
      rw [ht.1]
      nofun
    rcases out with e | _ | signo
    · exact ⟨owed_append, ht.2.append _⟩
    · exact ⟨owed_append, ht.2.append _⟩
    · show Obeys _ _ _ (ite _ _ _)
      by_cases hsignal : signo = SIGCHLD.toUInt32
      · rw [if_pos hsignal]
        exact ⟨by simp [takenSignal, hsignal], ht.2.append _⟩
      · -- the signal that was read is sent by the next call
        rw [if_neg hsignal]
        refine obeys_onHistory_call.2 ⟨?_, fun out => ⟨owed_append, (ht.2.append _).append _⟩⟩
        unfold Hands
        rw [owed_append, takenSignal, if_neg hsignal]
        exact ⟨child.pidfd, ht.2.append _, rfl⟩

def settledAt (t : List (Event Op.Out)) : Point → Prop
  | .start => t = []
  | .wait child _ => Settled child t

theorem runOnceMode_hands :
    (runOnceMode texts sandbox).Keeps (onHistory (Hands sandbox.forwardSignals)) settledAt
      fun t _ => owed t = none := by
  rintro t (_ | ⟨child, point⟩) ht
  · obtain rfl := ht
    refine Obeys.bind spawn_hands ?_
    rintro t (e | child) ht
    · exact ht
    · refine Obeys.bind (obeys_silent (always_beginSetup (fun _ _ => trivial) (fun _ => trivial)
        trivial fun _ => trivial) ht.1) ?_
      rintro t' (e | ⟨⟩) ⟨ht', s, rfl, -⟩
      · exact settled_call trivial ⟨ht', ht.2.append s⟩ fun _ _ ht' => ht'.1
      · exact ⟨ht', ht.2.append s⟩
  · refine Obeys.bind (wait_hands point ht) ?_
    rintro t (point | result) ht
    · exact ht
    · refine Obeys.bind (obeys_silent (always_endSetup (fun _ => trivial) result) ht.1) ?_
      rintro t' result ⟨ht', s, rfl, -⟩
      exact settled_call trivial ⟨ht', ht.2.append s⟩ fun _ _ ht' => ht'.1

/-- In every run of the parent, at every moment of it and whatever the kernel answers: the signals
that were sent are the signals that were read, as they are or as `SIGKILL`, each once and in their
order, except for one that was read by the very last call; all went to the descriptor that was made
together with the child. When the parent returns, none is left. -/
theorem signals_forwarded {q : Prog Op Op.Out (Point ⊕ Except Error CInt)}
    (h : LoopAfter (runOnceMode texts sandbox) (runOnceMode texts sandbox .start) t q) :
    Forwarded sandbox.forwardSignals t ∧ ∀ result, q = .ret (.inr result) → owed t = none := by
  have hstart := @runOnceMode_hands texts sandbox [] .start rfl
  have hans : Answered (onHistory (Hands sandbox.forwardSignals)).answers [] t t :=
    answered_onHistory
  constructor
  · refine h.keeps runOnceMode_hands ?_ hans hstart ⟨[], rfl, rfl, nofun⟩
    rintro t op out _ ht hop rfl
    exact ht.step hop out
  · rintro result rfl
    exact h.obeys runOnceMode_hands hans hstart

/-- A run of the parent up to the first signal, which is sent to the child. -/
def oneSignal : List (Event Op.Out) :=
  cloneCalls bareSandbox bareSpec (3, 4) (5, 6) (.ok (some (42, 7))) ++
    [⟨.close 3, ()⟩, ⟨.close 6, ()⟩, ⟨.writeFile "/proc/42/setgroups" "deny", .ok ()⟩,
      ⟨.writeFile "/proc/42/uid_map" bareSandbox.uidMap.content, .ok ()⟩,
      ⟨.writeFile "/proc/42/gid_map" bareSandbox.gidMap.content, .ok ()⟩, ⟨.write 4, .ok ()⟩,
      ⟨.close 4, ()⟩, ⟨.signalfd supervisionSignalMask, .ok 8⟩, ⟨.poll 7 8, .ok false⟩,
      ⟨.readSignal 8, .ok (some 15)⟩, ⟨.pidfdSendSignal 7 SIGTERM, .ok ()⟩]

theorem oneSignal_forwarded :
    sentSignals oneSignal = [(7, SIGTERM)] ∧ takenSignals oneSignal = [15] ∧
      Forwarded true oneSignal := by
  have hafter : LoopAfter (runOnceMode silentTexts bareSandbox)
      (runOnceMode silentTexts bareSandbox .start) oneSignal
      (.ret (.inl (.wait ⟨42, 7, 4, 5⟩ (.drain 8)))) := by
    refine .call (.call (.call (.call (.call (.call ?_)))))
    refine .call (.call (.call (.call (.call (.call ?_)))))
    refine .again (.call ?_)
    refine .again (.call ?_)
    refine .again (.call (.call (.nil _)))
  exact ⟨rfl, rfl, (signals_forwarded hafter).1⟩

end Parent

end Pnut.Parent
