import Pnut.Sandbox.Parent

/-!
# What the parent leaves behind

A run of the parent that returns has failed before the child was there, or goes through the setup
and the supervision to the place where the signal mask is taken back. From the calls of each part:
when the child has been waited for, and when the mask is the one on entry.
-/

namespace Pnut.Parent

open Program Prog
open Child (CInt Errno ChildSpec)

/-! ## The parts of a run -/

/-- A call that neither creates a child nor touches the signal mask. -/
def Op.Plain : Op → Prop
  | .threadBlock _ => False
  | .threadUnblock _ => False
  | .clone3 _ => False
  | _ => True

/-- A call that changes neither: a plain one, or one that could not block the signals. -/
def Idle (event : Event Op.Out) : Prop :=
  event.1.Plain ∨ ∃ mask e, event = ⟨.threadBlock mask, .error e⟩

section Parts

variable {texts : Texts} {sandbox : Sandbox} {t : List (Event Op.Out)}

/-- The child is there, and so is a descriptor for it. -/
def Made (out : Except Errno (Option (CInt × CInt))) (pid pidfd : CInt) : Prop :=
  out = .ok (some (pid, pidfd)) ∧ 0 ≤ pidfd

/-- The calls of a run up to `clone3`. -/
def cloneCalls (sandbox : Sandbox) (spec : ChildSpec) (sync status : CInt × CInt)
    (out : Except Errno (Option (CInt × CInt))) : List (Event Op.Out) :=
  [⟨.prepare, .ok spec⟩, ⟨.pipe, .ok sync⟩, ⟨.pipe2Cloexec, .ok status⟩,
    ⟨.threadBlock supervisionSignalMask, .ok ()⟩,
    ⟨.clone3 (cloneFlags sandbox.namespaces ||| CLONE_PIDFD), out⟩]

/-- The runs up to the parent's side of `clone3`: they come there, or fail at one of the calls. -/
theorem spawn_returned {r : Except Error Handle}
    (h : Runs Op.Final (spawn texts sandbox) t (.returned r)) :
    (∃ child spec sync status, r = .ok child ∧ 0 ≤ child.pidfd ∧
      t = cloneCalls sandbox spec sync status (.ok (some (child.pid, child.pidfd))) ++
        [⟨.close sync.1, ()⟩, ⟨.close status.2, ()⟩]) ∨
    (∃ e, r = .error e ∧
      ((∃ spec sync status out, (∀ pid pidfd, ¬ Made out pid pidfd) ∧
        t = cloneCalls sandbox spec sync status out) ∨ ∀ event ∈ t, Idle event)) := by
  rcases h.call_inv with ⟨out, t₁, rfl, h₁⟩ | ⟨-, he, -⟩
  swap
  · cases he
  rcases out with message | spec
  · refine .inr ⟨_, Ending.returned.inj h₁.ret_inv.2, .inr ?_⟩
    rw [h₁.ret_inv.1]
    simp [Idle, Op.Plain]
  rcases h₁.call_inv with ⟨out, t₂, rfl, h₂⟩ | ⟨-, he, -⟩
  swap
  · cases he
  rcases out with e | sync
  · refine .inr ⟨_, Ending.returned.inj h₂.ret_inv.2, .inr ?_⟩
    rw [h₂.ret_inv.1]
    simp [Idle, Op.Plain]
  rcases h₂.call_inv with ⟨out, t₃, rfl, h₃⟩ | ⟨-, he, -⟩
  swap
  · cases he
  rcases out with e | status
  · refine .inr ⟨_, Ending.returned.inj h₃.ret_inv.2, .inr ?_⟩
    rw [h₃.ret_inv.1]
    simp [Idle, Op.Plain]
  rcases h₃.call_inv with ⟨out, t₄, rfl, h₄⟩ | ⟨-, he, -⟩
  swap
  · cases he
  rcases out with e | _
  · refine .inr ⟨_, Ending.returned.inj h₄.ret_inv.2, .inr ?_⟩
    rw [h₄.ret_inv.1]
    simp [Idle, Op.Plain]
  rcases h₄.call_inv with ⟨out, t₅, rfl, h₅⟩ | ⟨-, he, -⟩
  swap
  · cases he
  rcases out with e | _ | ⟨pid, pidfd⟩
  · refine .inr ⟨_, Ending.returned.inj h₅.ret_inv.2, .inl ⟨spec, sync, status, .error e, ?_, ?_⟩⟩
    · rintro pid pidfd ⟨hmade, -⟩
      cases hmade
    · rw [h₅.ret_inv.1]
      rfl
  · -- the child's side does not return
    rcases h₅.call_inv with ⟨_, t₆, rfl, h₆⟩ | ⟨-, he, -⟩
    swap
    · cases he
    rcases h₆.call_inv with ⟨_, t₇, rfl, h₇⟩ | ⟨-, he, -⟩
    swap
    · cases he
    rcases h₇.call_inv with ⟨_, t₈, rfl, h₈⟩ | ⟨-, he, -⟩
    swap
    · cases he
    rcases h₈.call_inv with ⟨never, -⟩ | ⟨-, he, -⟩
    · nomatch never
    · cases he
  · change Runs Op.Final (Prog.bind (ite (pidfd < 0) _ _) _) t₅ _ at h₅
    by_cases hpidfd : pidfd < 0
    · rw [if_pos hpidfd] at h₅
      refine .inr ⟨_, Ending.returned.inj h₅.ret_inv.2, .inl
        ⟨spec, sync, status, .ok (some (pid, pidfd)), ?_, ?_⟩⟩
      · rintro pid' pidfd' ⟨hmade, hvalid⟩
        cases hmade
        exact absurd hpidfd (Int32.not_lt.2 hvalid)
      · rw [h₅.ret_inv.1]
        rfl
    · rw [if_neg hpidfd] at h₅
      rcases h₅.call_inv with ⟨_, t₆, rfl, h₆⟩ | ⟨-, he, -⟩
      swap
      · cases he
      rcases h₆.call_inv with ⟨_, t₇, rfl, h₇⟩ | ⟨-, he, -⟩
      swap
      · cases he
      refine .inl ⟨_, spec, sync, status, Ending.returned.inj h₇.ret_inv.2,
        Int32.not_lt.1 hpidfd, ?_⟩
      rw [h₇.ret_inv.1]
      rfl

/-- The supervision within a run of the parent, and what follows it. -/
theorem wait_returned {child : Handle} {p : Prog Op Op.Out (Point ⊕ Except Error CInt)}
    {ending : Ending Op (Except Error CInt)}
    (h : LoopRuns Op.Final (runOnceMode texts sandbox) p t ending) :
    ∀ {point : WaitPoint} {r : Except Error CInt},
      p = runOnceMode texts sandbox (.wait child point) → ending = .returned r →
      ∃ s₁ s₂ result, t = s₁ ++ s₂ ++ [⟨.threadUnblock supervisionSignalMask, ()⟩] ∧
        LoopRuns Op.Final (waitForChild texts child.pid child.pidfd sandbox.forwardSignals)
          (waitForChild texts child.pid child.pidfd sandbox.forwardSignals point) s₁
          (.returned result) ∧
        Runs Op.Final (endSetup texts sandbox child result) s₂ (.returned r) := by
  induction h with
  | left h => exact fun _ hr => nomatch hr
  | @returned p t a h =>
    rintro point r rfl hr
    cases hr
    rcases h.bind_inv with ⟨t₁, t₂, next, rfl, h₁, h₂⟩ | ⟨op, he, -⟩
    swap
    · cases he
    rcases next with point' | result
    · cases h₂.ret_inv.2
    · rcases h₂.bind_inv with ⟨t₃, t₄, result', rfl, h₃, h₄⟩ | ⟨op, he, -⟩
      swap
      · cases he
      rcases h₄.call_inv with ⟨_, t₅, rfl, h₅⟩ | ⟨-, he, -⟩
      swap
      · cases he
      rcases h₅.ret_inv with ⟨rfl, hresult⟩
      cases hresult
      exact ⟨t₁, t₃, result, by rw [List.append_assoc], .returned h₁, h₃⟩
  | @again p t₁ t₂ pt ending h _ ih =>
    rintro point r rfl hr
    rcases h.bind_inv with ⟨s₁, s₂, next, rfl, h₁, h₂⟩ | ⟨op, he, -⟩
    swap
    · cases he
    rcases next with point' | result
    · rcases h₂.ret_inv with ⟨rfl, hnext⟩
      cases hnext
      obtain ⟨s₃, s₄, result, rfl, h₃, h₄⟩ := ih rfl hr
      refine ⟨s₁ ++ s₃, s₄, result, ?_, .again h₁ h₃, h₄⟩
      simp only [List.append_nil, List.append_assoc]
    · rcases h₂.bind_inv with ⟨t₃, t₄, result', rfl, h₃, h₄⟩ | ⟨op, he, -⟩
      swap
      · cases he
      rcases h₄.call_inv with ⟨_, t₅, rfl, h₅⟩ | ⟨-, he, -⟩
      swap
      · cases he
      cases h₅.ret_inv.2

/-- A run that returns: the child was never there, or the run comes to where the mask is taken
back. -/
theorem once_returned {r : Except Error CInt}
    (h : LoopRuns Op.Final (runOnceMode texts sandbox) (runOnceMode texts sandbox .start) t
      (.returned r)) :
    (∃ e, r = .error e ∧ Runs Op.Final (spawn texts sandbox) t (.returned (.error e))) ∨
    ∃ child t₁ t₂, t = t₁ ++ t₂ ++ [⟨.threadUnblock supervisionSignalMask, ()⟩] ∧
      Runs Op.Final (spawn texts sandbox) t₁ (.returned (.ok child)) ∧
      ((∃ e, r = .error e ∧ Runs Op.Final (beginSetup sandbox child) t₂ (.returned (.error e))) ∨
      ∃ s₁ s₂ s₃ result, t₂ = s₁ ++ (s₂ ++ s₃) ∧
        Runs Op.Final (beginSetup sandbox child) s₁ (.returned (.ok ())) ∧
        LoopRuns Op.Final (waitForChild texts child.pid child.pidfd sandbox.forwardSignals)
          (waitForChild texts child.pid child.pidfd sandbox.forwardSignals .start) s₂
          (.returned result) ∧
        Runs Op.Final (endSetup texts sandbox child result) s₃ (.returned r)) := by
  cases h with
  | returned h =>
    rcases h.bind_inv with ⟨t₁, t₂, made, rfl, h₁, h₂⟩ | ⟨op, he, -⟩
    swap
    · cases he
    rcases made with e | child
    · rcases h₂.ret_inv with ⟨rfl, hr⟩
      cases hr
      exact .inl ⟨e, rfl, by rwa [List.append_nil]⟩
    rcases h₂.bind_inv with ⟨t₃, t₄, begun, rfl, h₃, h₄⟩ | ⟨op, he, -⟩
    swap
    · cases he
    rcases begun with e | _
    · rcases h₄.call_inv with ⟨_, t₅, rfl, h₅⟩ | ⟨-, he, -⟩
      swap
      · cases he
      rcases h₅.ret_inv with ⟨rfl, hr⟩
      cases hr
      exact .inr ⟨child, t₁, t₃, by rw [List.append_assoc], h₁, .inl ⟨e, rfl, h₃⟩⟩
    · cases h₄.ret_inv.2
  | again h hrest =>
    rcases h.bind_inv with ⟨t₁, t₂, made, rfl, h₁, h₂⟩ | ⟨op, he, -⟩
    swap
    · cases he
    rcases made with e | child
    · cases h₂.ret_inv.2
    rcases h₂.bind_inv with ⟨t₃, t₄, begun, rfl, h₃, h₄⟩ | ⟨op, he, -⟩
    swap
    · cases he
    rcases begun with e | _
    · rcases h₄.call_inv with ⟨_, t₅, rfl, h₅⟩ | ⟨-, he, -⟩
      swap
      · cases he
      cases h₅.ret_inv.2
    · rcases h₄.ret_inv with ⟨rfl, hnext⟩
      cases hnext
      obtain ⟨s₁, s₂, result, rfl, hwait, hend⟩ := wait_returned hrest rfl rfl
      refine .inr ⟨child, t₁, t₃ ++ (s₁ ++ s₂), ?_, h₁, .inr ⟨t₃, s₁, s₂, result, rfl, h₃, hwait,
        hend⟩⟩
      simp only [List.append_nil, List.append_assoc]

/-- The write of a file. -/
def Op.IsWriteFile : Op → Prop
  | .writeFile _ _ => True
  | _ => False

theorem always_writeIdMaps {childPid : CInt} {uidMap gidMap : IdMap} :
    Always Op.IsWriteFile (writeIdMaps childPid uidMap gidMap) := by
  refine ⟨trivial, fun out => ?_⟩
  rcases out with e | _
  · trivial
  refine ⟨trivial, fun out => ?_⟩
  rcases out with e | _
  · trivial
  refine ⟨trivial, fun out => ?_⟩
  rcases out with e | _ <;> trivial

/-- The setup before the supervision: the id maps fail, and the child is waited for; the byte that
lets the child go on cannot be written; or all is done. -/
theorem beginSetup_returned {child : Handle} {r : Except Error Unit}
    (h : Runs Op.Final (beginSetup sandbox child) t (.returned r)) :
    ∃ s, (∀ event ∈ s, event.1.IsWriteFile) ∧
      ((∃ e out, r = .error e ∧
        t = s ++ [⟨.close child.syncWrite, ()⟩, ⟨.waitpid child.pid false, out⟩]) ∨
      (∃ e err, r = .error e ∧ t = s ++ [⟨.write child.syncWrite, .error err⟩]) ∨
      (r = .ok () ∧
        t = s ++ [⟨.write child.syncWrite, .ok ()⟩, ⟨.close child.syncWrite, ()⟩])) := by
  rw [beginSetup, lift_bind] at h
  rcases Runs.bind_inv h with ⟨s, s', maps, rfl, h₁, h₂⟩ | ⟨op, he, -⟩
  swap
  · cases he
  refine ⟨s, Prog.always_of_runs h₁ always_writeIdMaps, ?_⟩
  rcases maps with e | _
  · rcases h₂.call_inv with ⟨_, t₃, rfl, h₃⟩ | ⟨-, he, -⟩
    swap
    · cases he
    rcases h₃.call_inv with ⟨out, t₄, rfl, h₄⟩ | ⟨-, he, -⟩
    swap
    · cases he
    rcases h₄.ret_inv with ⟨rfl, hr⟩
    exact .inl ⟨e, out, Ending.returned.inj hr, rfl⟩
  · rcases h₂.call_inv with ⟨out, t₃, rfl, h₃⟩ | ⟨-, he, -⟩
    swap
    · cases he
    rcases out with err | _
    · rcases h₃.ret_inv with ⟨rfl, hr⟩
      exact .inr (.inl ⟨_, err, Ending.returned.inj hr, rfl⟩)
    · rcases h₃.call_inv with ⟨_, t₄, rfl, h₄⟩ | ⟨-, he, -⟩
      swap
      · cases he
      rcases h₄.ret_inv with ⟨rfl, hr⟩
      exact .inr (.inr ⟨Ending.returned.inj hr, rfl⟩)

section Always

variable {Q : Op → Prop} {child : Handle}

theorem always_beginSetup (hfile : ∀ path content, Q (.writeFile path content))
    (hclose : ∀ fd, Q (.close fd)) (hwait : Q (.waitpid child.pid false))
    (hwrite : ∀ fd, Q (.write fd)) : Always Q (beginSetup sandbox child) := by
  rw [beginSetup, lift_bind]
  refine always_bind.2 ⟨?_, fun maps _ => ?_⟩
  · refine always_mono (fun op hop => ?_) always_writeIdMaps
    rcases op <;> first | exact hfile _ _ | exact hop.elim
  · rcases maps with e | _
    · exact ⟨hclose _, fun _ => ⟨hwait, fun _ => trivial⟩⟩
    · refine ⟨hwrite _, fun out => ?_⟩
      rcases out with err | _
      · trivial
      · exact ⟨hclose _, fun _ => trivial⟩

theorem always_waitForChild {childPid pidfd : CInt} {forwardSignals : Bool}
    (hsignalfd : ∀ mask, Q (.signalfd mask)) (hpoll : ∀ pidfd sfd, Q (.poll pidfd sfd))
    (hwait : Q (.waitpid childPid true)) (hread : ∀ sfd, Q (.readSignal sfd))
    (hsend : ∀ pidfd signal, Q (.pidfdSendSignal pidfd signal)) (point : WaitPoint) :
    Always Q (waitForChild texts childPid pidfd forwardSignals point) := by
  rcases point with _ | sfd | sfd
  · refine ⟨hsignalfd _, fun out => ?_⟩
    rcases out with e | sfd <;> trivial
  · refine ⟨hpoll _ _, fun out => ?_⟩
    rcases out with e | _ | _
    · simp only [Prog.bind]
      split_ifs <;> trivial
    · trivial
    · exact ⟨hwait, fun _ => trivial⟩
  · refine ⟨hread _, fun out => ?_⟩
    rcases out with e | _ | signo
    · trivial
    · trivial
    · simp only [Prog.bind]
      by_cases hsignal : signo = SIGCHLD.toUInt32
      · rw [if_pos hsignal]
        trivial
      · rw [if_neg hsignal]
        exact ⟨hsend _ _, fun _ => trivial⟩

theorem always_endSetup (hread : ∀ fd, Q (.readStatus fd)) (result : Except Error CInt) :
    Always Q (endSetup texts sandbox child result) := by
  rcases result with e | exitCode
  · trivial
  · refine ⟨hread _, fun record => ?_⟩
    simp only [Prog.bind, pure_eq]
    cases decodeRecord texts sandbox record <;> trivial

end Always

end Parts

/-! ## The signal mask -/

/-- The mask of the calling thread after a call. -/
def maskStep (m : SigSet) : Event Op.Out → SigSet
  | ⟨.threadBlock mask, .ok _⟩ => m ∪ mask
  | ⟨.threadUnblock mask, _⟩ => m \ mask
  | _ => m

def maskAfter (m : SigSet) (t : List (Event Op.Out)) : SigSet := t.foldl maskStep m

section Mask

variable {texts : Texts} {sandbox : Sandbox} {t : List (Event Op.Out)} {m : SigSet}

theorem maskAfter_append (m : SigSet) (t s : List (Event Op.Out)) :
    maskAfter m (t ++ s) = maskAfter (maskAfter m t) s := List.foldl_append

theorem maskAfter_idle (h : ∀ event ∈ t, Idle event) : maskAfter m t = m := by
  induction t with
  | nil => rfl
  | cons event t ih =>
    obtain ⟨hevent, ht⟩ := List.forall_mem_cons.1 h
    have hstep : maskStep m event = m := by
      rcases hevent with hplain | ⟨mask, e, rfl⟩
      · rcases event with ⟨op, out⟩
        cases op <;> first | rfl | exact hplain.elim
      · rfl
    show maskAfter (maskStep m event) t = m
    rw [hstep]
    exact ih ht

/-- The setup and the supervision leave the mask alone, and create no child. -/
theorem setup_plain {child : Handle} {r : Except Error CInt} {t₂ : List (Event Op.Out)}
    (h : (∃ e, r = .error e ∧ Runs Op.Final (beginSetup sandbox child) t₂ (.returned (.error e))) ∨
      ∃ s₁ s₂ s₃ result, t₂ = s₁ ++ (s₂ ++ s₃) ∧
        Runs Op.Final (beginSetup sandbox child) s₁ (.returned (.ok ())) ∧
        LoopRuns Op.Final (waitForChild texts child.pid child.pidfd sandbox.forwardSignals)
          (waitForChild texts child.pid child.pidfd sandbox.forwardSignals .start) s₂
          (.returned result) ∧
        Runs Op.Final (endSetup texts sandbox child result) s₃ (.returned r)) :
    ∀ event ∈ t₂, event.1.Plain := by
  have hbegin : Always Op.Plain (beginSetup sandbox child) :=
    always_beginSetup (fun _ _ => trivial) (fun _ => trivial) trivial fun _ => trivial
  rcases h with ⟨e, -, h⟩ | ⟨s₁, s₂, s₃, result, rfl, h₁, h₂, h₃⟩
  · exact always_of_runs h hbegin
  · have hwait : ∀ point, Always Op.Plain
        (waitForChild texts child.pid child.pidfd sandbox.forwardSignals point) :=
      always_waitForChild (fun _ => trivial) (fun _ _ => trivial) trivial (fun _ => trivial)
        fun _ _ => trivial
    have hend : Always Op.Plain (endSetup texts sandbox child result) :=
      always_endSetup (fun _ => trivial) result
    rw [List.forall_mem_append, List.forall_mem_append]
    exact ⟨always_of_runs h₁ hbegin, h₂.always hwait (hwait _), always_of_runs h₃ hend⟩

/-- The signals have been blocked. -/
def Blocked (t : List (Event Op.Out)) : Prop := ⟨.threadBlock supervisionSignalMask, .ok ()⟩ ∈ t

/-- `clone3` has made a child, with a descriptor for it. -/
def ChildMade (t : List (Event Op.Out)) : Prop :=
  ∃ flags out pid pidfd, ⟨.clone3 flags, out⟩ ∈ t ∧ Made out pid pidfd

theorem not_childMade_idle (h : ∀ event ∈ t, Idle event) : ¬ ChildMade t := by
  rintro ⟨flags, out, pid, pidfd, hmem, -⟩
  rcases h _ hmem with hplain | ⟨mask, e, heq⟩
  · exact hplain
  · cases heq

theorem not_blocked_idle (h : ∀ event ∈ t, Idle event) : ¬ Blocked t := by
  intro hmem
  rcases h _ hmem with hplain | ⟨mask, e, heq⟩
  · exact hplain
  · cases heq

/-- The mask on return is the one on entry exactly when none of the signals was blocked on entry,
for a run with a child, and when all were, for a run that has blocked them and got no child. -/
theorem mask_restored_iff (m : SigSet) {r : Except Error CInt}
    (h : LoopRuns Op.Final (runOnceMode texts sandbox) (runOnceMode texts sandbox .start) t
      (.returned r)) :
    maskAfter m t = m ↔
      (ChildMade t → Disjoint m supervisionSignalMask) ∧
        (Blocked t → ¬ ChildMade t → supervisionSignalMask ⊆ m) := by
  rcases once_returned h with ⟨e, -, hspawn⟩ | ⟨child, t₁, t₂, rfl, hspawn, hsetup⟩
  · rcases spawn_returned hspawn with ⟨_, _, _, _, hr, -⟩ |
      ⟨e', -, ⟨spec, sync, status, out, hout, rfl⟩ | hidle⟩
    · cases hr
    · have hnot : ¬ ChildMade (cloneCalls sandbox spec sync status out) := by
        rintro ⟨flags, out', pid, pidfd, hmem, hmade⟩
        simp only [cloneCalls, List.mem_cons, List.not_mem_nil, or_false] at hmem
        rcases hmem with heq | heq | heq | heq | heq <;> cases heq
        exact hout pid pidfd hmade
      have hblocked : Blocked (cloneCalls sandbox spec sync status out) := by
        simp [Blocked, cloneCalls]
      have hafter : maskAfter m (cloneCalls sandbox spec sync status out) =
          m ∪ supervisionSignalMask := rfl
      rw [hafter, Finset.union_eq_left]
      exact ⟨fun hsub => ⟨fun hmade => absurd hmade hnot, fun _ _ => hsub⟩,
        fun h => h.2 hblocked hnot⟩
    · refine iff_of_true (maskAfter_idle hidle) ⟨fun hmade => ?_, fun hblocked => ?_⟩
      · exact absurd hmade (not_childMade_idle hidle)
      · exact absurd hblocked (not_blocked_idle hidle)
  · rcases spawn_returned hspawn with ⟨child', spec, sync, status, hr, hpidfd, rfl⟩ | ⟨e, hr, -⟩
    swap
    · cases hr
    cases hr
    have hplain := setup_plain hsetup
    have hafter : maskAfter m ((cloneCalls sandbox spec sync status
        (.ok (some (child.pid, child.pidfd))) ++ [⟨.close sync.1, ()⟩, ⟨.close status.2, ()⟩]) ++
        t₂ ++ [⟨.threadUnblock supervisionSignalMask, ()⟩]) =
          (m ∪ supervisionSignalMask) \ supervisionSignalMask := by
      rw [maskAfter_append, maskAfter_append, maskAfter_idle (fun event hmem =>
        .inl (hplain event hmem))]
      rfl
    have hmade : ChildMade ((cloneCalls sandbox spec sync status
        (.ok (some (child.pid, child.pidfd))) ++ [⟨.close sync.1, ()⟩, ⟨.close status.2, ()⟩]) ++
        t₂ ++ [⟨.threadUnblock supervisionSignalMask, ()⟩]) :=
      ⟨cloneFlags sandbox.namespaces ||| CLONE_PIDFD, _, child.pid, child.pidfd,
        by simp [cloneCalls], rfl, hpidfd⟩
    rw [hafter, Finset.union_sdiff_right, Finset.sdiff_eq_self_iff_disjoint]
    exact ⟨fun hdisj => ⟨fun _ => hdisj, fun _ hnot => absurd hmade hnot⟩, fun h => h.1 hmade⟩

end Mask

/-- A sandbox without namespaces. -/
def bareSandbox : Sandbox :=
  ⟨["true"], true, ⟨false, false, false, false, false, false, false, false⟩, ⟨0, 1000, 1⟩,
    ⟨0, 1000, 1⟩⟩

/-- The spec of a child with nothing to set up. -/
def bareSpec : ChildSpec :=
  { syncFd := none, statusFd := none, completion := none, process := ⟨none, false, false, false,
    false, false, none⟩, mounts := none, hostname := none, bringUpLoopback := false, env := none,
    rlimits := none, landlock := none, caps := none, fds := default, seccomp := none, cwd := none,
    exec := ⟨"true", ["true"]⟩ }

def silentTexts : Texts := ⟨fun _ => "", fun _ => ""⟩

/-- When `clone3` fails, the signals stay blocked. -/
theorem refusedClone_not_restored :
    LoopRuns Op.Final (runOnceMode silentTexts bareSandbox)
      (runOnceMode silentTexts bareSandbox .start)
      (cloneCalls bareSandbox bareSpec (3, 4) (5, 6) (.error 1))
      (.returned (.error (.setup .clone "clone3 failed" 1))) ∧
    maskAfter ∅ (cloneCalls bareSandbox bareSpec (3, 4) (5, 6) (.error 1)) =
      supervisionSignalMask ∧
    supervisionSignalMask ≠ ∅ :=
  ⟨.returned (.call _ _ _ (.call _ _ _ (.call _ _ _ (.call _ _ _ (.call _ _ _ (.ret _)))))),
    by decide, by decide⟩

/-! ## The child -/

/-- After this answer the child is not there any more: its status was read, also where `nix` could
not decode it, or someone else has reaped it. -/
def Reaps : Except Errno WaitStatus → Prop
  | .ok .stillAlive => False
  | .ok _ => True
  | .error e => e = EINVAL ∨ e = ECHILD

/-- A wait for the child that found it gone. -/
def Waits (pid : CInt) : Event Op.Out → Prop
  | ⟨.waitpid pid' _, out⟩ => pid' = pid ∧ Reaps out
  | _ => False

/-- Such a wait in the loop of the supervision. -/
def WaitsNohang (pid : CInt) : Event Op.Out → Prop
  | ⟨.waitpid pid' true, out⟩ => pid' = pid ∧ Reaps out
  | _ => False

/-- The child has been waited for. -/
def Reaped (pid : CInt) (t : List (Event Op.Out)) : Prop := ∃ event ∈ t, Waits pid event

/-- A failure behind which the parent does not wait for the child: of the byte that lets the child
go on, of the signalfd, or of the wait itself. -/
def Strays : Event Op.Out → Prop
  | ⟨.write _, .error _⟩ => True
  | ⟨.signalfd _, .error _⟩ => True
  | ⟨.waitpid _ false, out⟩ => ¬ Reaps out
  | _ => False

/-- A failure of the poll that ends the supervision. -/
def PollFails : Event Op.Out → Prop
  | ⟨.poll _ _, .error e⟩ => e ≠ EINTR
  | _ => False

/-- The parent was left no way out before the child was gone. -/
structure Supervised (pid pidfd : CInt) (t : List (Event Op.Out)) : Prop where
  pidfd_valid : 0 ≤ pidfd
  no_stray : ∀ event ∈ t, ¬ Strays event
  poll_fails : (∃ event ∈ t, PollFails event) → ∃ event ∈ t, WaitsNohang pid event

/-- Neither a wait for the child nor one of the failures. -/
structure Beside (pid : CInt) (event : Event Op.Out) : Prop where
  waits : ¬ Waits pid event
  strays : ¬ Strays event
  pollFails : ¬ PollFails event

/-- A call that has nothing to do with the child's end. -/
def Op.Inert : Op → Prop
  | .write _ => False
  | .signalfd _ => False
  | .waitpid _ _ => False
  | .poll _ _ => False
  | _ => True

section Child

variable {texts : Texts} {sandbox : Sandbox} {t : List (Event Op.Out)} {pid : CInt}

theorem beside_of_inert {event : Event Op.Out} (h : event.1.Inert) : Beside pid event := by
  rcases event with ⟨op, out⟩
  cases op <;> first | exact h.elim | exact ⟨id, id, id⟩

theorem waits_of_nohang {event : Event Op.Out} (h : WaitsNohang pid event) :
    Waits pid event := by
  rcases event with ⟨op, out⟩
  rcases op with _ | _ | _ | _ | _ | _ | _ | _ | _ | _ | ⟨pid', _ | _⟩ | _ | _ | _ | _ | _ <;>
    first | exact h.elim | exact h

/-- When the calls have left the child reaped: nothing strayed, and the poll did not fail before the
child was gone. -/
def ReapedWhen (pid : CInt) (t : List (Event Op.Out)) : Prop :=
  Reaped pid t ↔ (∀ event ∈ t, ¬ Strays event) ∧
    ((∃ event ∈ t, PollFails event) → ∃ event ∈ t, WaitsNohang pid event)

/-- Calls beside the child's end change nothing. -/
theorem reapedWhen_append (s₁ s₃ : List (Event Op.Out)) {s₂ : List (Event Op.Out)}
    (h : ReapedWhen pid s₂)
    (h₁ : ∀ event ∈ s₁, Beside pid event) (h₃ : ∀ event ∈ s₃, Beside pid event) :
    ReapedWhen pid (s₁ ++ s₂ ++ s₃) := by
  have hmem : ∀ P : Event Op.Out → Prop, (∀ event, Beside pid event → ¬ P event) →
      ((∃ event ∈ s₁ ++ s₂ ++ s₃, P event) ↔ ∃ event ∈ s₂, P event) := by
    intro P hP
    constructor
    · rintro ⟨event, hmem, hevent⟩
      rcases List.mem_append.1 hmem with hmem | hmem
      · rcases List.mem_append.1 hmem with hmem | hmem
        · exact absurd hevent (hP event (h₁ event hmem))
        · exact ⟨event, hmem, hevent⟩
      · exact absurd hevent (hP event (h₃ event hmem))
    · rintro ⟨event, hmem, hevent⟩
      exact ⟨event, by simp [hmem], hevent⟩
  have hstray := hmem Strays fun event hbeside => hbeside.strays
  have hreaped := hmem (Waits pid) fun event hbeside => hbeside.waits
  have hpoll := hmem PollFails fun event hbeside => hbeside.pollFails
  have hnohang := hmem (WaitsNohang pid) fun event hbeside hwaits =>
    hbeside.waits (waits_of_nohang hwaits)
  have hnot : ∀ t : List (Event Op.Out),
      (∀ event ∈ t, ¬ Strays event) ↔ ¬ ∃ event ∈ t, Strays event := fun t =>
    ⟨fun hall ⟨event, hmem, hstrays⟩ => hall event hmem hstrays,
      fun hnone event hmem hstrays => hnone ⟨event, hmem, hstrays⟩⟩
  unfold ReapedWhen Reaped at h ⊢
  rw [hnot, hstray, ← hnot, hreaped, hpoll, hnohang]
  exact h

/-- What one round of the supervision shows of the child. -/
theorem watch_step {pidfd sfd : CInt} {forwardSignals : Bool} {point : WaitPoint}
    (hpoint : point = .poll sfd ∨ point = .drain sfd)
    {next : WaitPoint ⊕ Except Error CInt}
    (h : Runs Op.Final (waitForChild texts pid pidfd forwardSignals point) t (.returned next)) :
    (∀ event ∈ t, ¬ Strays event ∧ (Waits pid event → WaitsNohang pid event)) ∧
      ((next = .inl (.poll sfd) ∨ next = .inl (.drain sfd)) ∨
        (∃ r, next = .inr r) ∧
          ((∃ event ∈ t, WaitsNohang pid event) ∨ ∃ event ∈ t, PollFails event)) := by
  rcases hpoint with rfl | rfl
  · rcases h.call_inv with ⟨out, t₁, rfl, h₁⟩ | ⟨-, he, -⟩
    swap
    · cases he
    rcases out with e | ready
    · simp only [Prog.bind] at h₁
      by_cases he : e = EINTR
      · rw [if_pos he] at h₁
        rcases h₁.ret_inv with ⟨rfl, hnext⟩
        refine ⟨?_, .inl (.inl (Ending.returned.inj hnext))⟩
        simp [Strays, Waits]
      · rw [if_neg he] at h₁
        rcases h₁.ret_inv with ⟨rfl, hnext⟩
        refine ⟨?_, .inr ⟨⟨_, Ending.returned.inj hnext⟩, .inr ⟨_, List.mem_cons_self .., he⟩⟩⟩
        simp [Strays, Waits]
    · rcases ready with _ | _
      · rcases h₁.ret_inv with ⟨rfl, hnext⟩
        refine ⟨?_, .inl (.inr (Ending.returned.inj hnext))⟩
        simp [Strays, Waits]
      · rcases h₁.call_inv with ⟨status, t₂, rfl, h₂⟩ | ⟨-, he, -⟩
        swap
        · cases he
        rcases h₂.ret_inv with ⟨rfl, hnext⟩
        refine ⟨?_, ?_⟩
        · simp [Strays, Waits, WaitsNohang]
        · have hnext' := Ending.returned.inj hnext
          rcases status with e | status
          · exact .inl (.inl hnext')
          · rcases status with code | signal | _
            · exact .inr ⟨⟨_, hnext'⟩, .inl ⟨⟨.waitpid pid true, .ok (.exited code)⟩, by simp, rfl,
                trivial⟩⟩
            · exact .inr ⟨⟨_, hnext'⟩, .inl ⟨⟨.waitpid pid true, .ok (.signaled signal)⟩, by simp,
                rfl, trivial⟩⟩
            · exact .inl (.inl hnext')
  · rcases h.call_inv with ⟨out, t₁, rfl, h₁⟩ | ⟨-, he, -⟩
    swap
    · cases he
    rcases out with e | _ | signo
    · rcases h₁.ret_inv with ⟨rfl, hnext⟩
      refine ⟨?_, .inl (.inl (Ending.returned.inj hnext))⟩
      simp [Strays, Waits]
    · rcases h₁.ret_inv with ⟨rfl, hnext⟩
      refine ⟨?_, .inl (.inl (Ending.returned.inj hnext))⟩
      simp [Strays, Waits]
    · simp only [Prog.bind] at h₁
      by_cases hsignal : signo = SIGCHLD.toUInt32
      · rw [if_pos hsignal] at h₁
        rcases h₁.ret_inv with ⟨rfl, hnext⟩
        refine ⟨?_, .inl (.inr (Ending.returned.inj hnext))⟩
        simp [Strays, Waits]
      · rw [if_neg hsignal] at h₁
        rcases h₁.call_inv with ⟨_, t₂, rfl, h₂⟩ | ⟨-, he, -⟩
        swap
        · cases he
        rcases h₂.ret_inv with ⟨rfl, hnext⟩
        refine ⟨?_, .inl (.inr (Ending.returned.inj hnext))⟩
        simp [Strays, Waits]

/-- The rounds of the supervision, up to its return. -/
theorem watch_run {pidfd : CInt} {forwardSignals : Bool}
    {p : Prog Op Op.Out (WaitPoint ⊕ Except Error CInt)} {ending : Ending Op (Except Error CInt)}
    (h : LoopRuns Op.Final (waitForChild texts pid pidfd forwardSignals) p t ending) :
    ∀ {point : WaitPoint} {sfd : CInt} {result : Except Error CInt},
      p = waitForChild texts pid pidfd forwardSignals point →
      point = .poll sfd ∨ point = .drain sfd → ending = .returned result →
      (∀ event ∈ t, ¬ Strays event ∧ (Waits pid event → WaitsNohang pid event)) ∧
        ((∃ event ∈ t, WaitsNohang pid event) ∨ ∃ event ∈ t, PollFails event) := by
  induction h with
  | left h => exact fun _ _ he => nomatch he
  | @returned p t a h =>
    rintro point sfd result rfl hpoint -
    obtain ⟨hevents, hnext⟩ := watch_step hpoint h
    rcases hnext with (hnext | hnext) | ⟨-, hend⟩
    · cases hnext
    · cases hnext
    · exact ⟨hevents, hend⟩
  | @again p t₁ t₂ next ending h _ ih =>
    rintro point sfd result rfl hpoint he
    obtain ⟨hevents, hnext⟩ := watch_step hpoint h
    have hrest : (∀ event ∈ t₂, ¬ Strays event ∧ (Waits pid event → WaitsNohang pid event)) ∧
        ((∃ event ∈ t₂, WaitsNohang pid event) ∨ ∃ event ∈ t₂, PollFails event) := by
      rcases hnext with (hnext | hnext) | ⟨⟨r, hnext⟩, -⟩
      · exact ih rfl (.inl (Sum.inl.inj hnext)) he
      · exact ih rfl (.inr (Sum.inl.inj hnext)) he
      · cases hnext
    refine ⟨List.forall_mem_append.2 ⟨hevents, hrest.1⟩, ?_⟩
    rcases hrest.2 with ⟨event, hmem, hwaits⟩ | ⟨event, hmem, hfails⟩
    · exact .inl ⟨event, List.mem_append_right t₁ hmem, hwaits⟩
    · exact .inr ⟨event, List.mem_append_right t₁ hmem, hfails⟩

theorem reapedWhen_watch
    (hevents : ∀ event ∈ t, ¬ Strays event ∧ (Waits pid event → WaitsNohang pid event))
    (hend : (∃ event ∈ t, WaitsNohang pid event) ∨ ∃ event ∈ t, PollFails event) :
    ReapedWhen pid t := by
  constructor
  · rintro ⟨event, hmem, hwaits⟩
    exact ⟨fun event hmem => (hevents event hmem).1,
      fun _ => ⟨event, hmem, (hevents event hmem).2 hwaits⟩⟩
  · rintro ⟨-, hpoll⟩
    have hnohang : ∃ event ∈ t, WaitsNohang pid event := hend.elim id hpoll
    obtain ⟨event, hmem, hwaits⟩ := hnohang
    exact ⟨event, hmem, waits_of_nohang hwaits⟩

/-- The supervision leaves the child reaped, unless the signalfd or the poll failed. -/
theorem reapedWhen_wait {pidfd : CInt} {forwardSignals : Bool} {result : Except Error CInt}
    (h : LoopRuns Op.Final (waitForChild texts pid pidfd forwardSignals)
      (waitForChild texts pid pidfd forwardSignals .start) t (.returned result)) :
    ReapedWhen pid t := by
  cases h with
  | returned h =>
    rcases h.call_inv with ⟨out, t₁, rfl, h₁⟩ | ⟨-, he, -⟩
    swap
    · cases he
    rcases out with e | sfd
    · rcases h₁.ret_inv with ⟨rfl, -⟩
      simp [ReapedWhen, Reaped, Waits, Strays]
    · cases h₁.ret_inv.2
  | again h hrest =>
    rcases h.call_inv with ⟨out, t₁, rfl, h₁⟩ | ⟨-, he, -⟩
    swap
    · cases he
    rcases out with e | sfd
    · cases h₁.ret_inv.2
    · rcases h₁.ret_inv with ⟨rfl, hnext⟩
      cases hnext
      obtain ⟨hevents, hend⟩ := watch_run hrest rfl (.inl rfl) rfl
      have hwatch := reapedWhen_watch hevents hend
      have hsignalfd : Beside pid ⟨.signalfd supervisionSignalMask, .ok sfd⟩ := ⟨id, id, id⟩
      have happend := reapedWhen_append [⟨.signalfd supervisionSignalMask, .ok sfd⟩] [] hwatch
        (List.forall_mem_singleton.2 hsignalfd) (List.forall_mem_nil _)
      rwa [List.append_nil] at happend

/-- The setup and the supervision. -/
theorem reapedWhen_setup {child : Handle} {r : Except Error CInt}
    (h : (∃ e, r = .error e ∧ Runs Op.Final (beginSetup sandbox child) t (.returned (.error e))) ∨
      ∃ s₁ s₂ s₃ result, t = s₁ ++ (s₂ ++ s₃) ∧
        Runs Op.Final (beginSetup sandbox child) s₁ (.returned (.ok ())) ∧
        LoopRuns Op.Final (waitForChild texts child.pid child.pidfd sandbox.forwardSignals)
          (waitForChild texts child.pid child.pidfd sandbox.forwardSignals .start) s₂
          (.returned result) ∧
        Runs Op.Final (endSetup texts sandbox child result) s₃ (.returned r)) :
    ReapedWhen child.pid t := by
  have hfiles : ∀ s : List (Event Op.Out), (∀ event ∈ s, event.1.IsWriteFile) →
      ∀ event ∈ s, Beside child.pid event := fun s hs event hmem => by
    refine beside_of_inert ?_
    have hfile := hs event hmem
    rcases event with ⟨op, out⟩
    cases op <;> trivial
  have hclose : ∀ fd, Beside child.pid ⟨.close fd, ()⟩ := fun fd => beside_of_inert trivial
  rcases h with ⟨e, -, h⟩ | ⟨s₁, s₂, s₃, result, rfl, h₁, h₂, h₃⟩
  · obtain ⟨s, hs, ⟨_, out, -, rfl⟩ | ⟨_, err, -, rfl⟩ | ⟨hr, -⟩⟩ := beginSetup_returned h
    · have hwait : ReapedWhen child.pid [⟨.waitpid child.pid false, out⟩] := by
        simp [ReapedWhen, Reaped, Waits, Strays, PollFails]
      have happend := reapedWhen_append (s ++ [⟨.close child.syncWrite, ()⟩]) [] hwait
        (List.forall_mem_append.2 ⟨hfiles s hs, List.forall_mem_singleton.2 (hclose _)⟩)
        (List.forall_mem_nil _)
      rwa [List.append_nil, List.append_assoc] at happend
    · have hwrite : ReapedWhen child.pid [⟨.write child.syncWrite, .error err⟩] := by
        simp [ReapedWhen, Reaped, Waits, Strays]
      have happend := reapedWhen_append s [] hwrite (hfiles s hs) (List.forall_mem_nil _)
      rwa [List.append_nil] at happend
    · cases hr
  · obtain ⟨s, hs, ⟨_, out, hr, -⟩ | ⟨_, err, hr, -⟩ | ⟨-, rfl⟩⟩ := beginSetup_returned h₁
    · cases hr
    · cases hr
    · have hwrite : Beside child.pid ⟨.write child.syncWrite, .ok ()⟩ := ⟨id, id, id⟩
      have hend : ∀ event ∈ s₃, Beside child.pid event := fun event hmem =>
        beside_of_inert (always_of_runs h₃ (always_endSetup (fun _ => trivial) result) event hmem)
      have hbegin : ∀ event ∈ s ++ [⟨.write child.syncWrite, .ok ()⟩,
          ⟨.close child.syncWrite, ()⟩], Beside child.pid event := by
        exact List.forall_mem_append.2 ⟨hfiles s hs, List.forall_mem_cons.2 ⟨hwrite,
          List.forall_mem_singleton.2 (hclose _)⟩⟩
      have happend := reapedWhen_append _ _ (reapedWhen_wait h₂) hbegin hend
      rwa [List.append_assoc] at happend

theorem inert_cloneCalls {spec : ChildSpec} {sync status : CInt × CInt}
    {out : Except Errno (Option (CInt × CInt))} :
    ∀ event ∈ cloneCalls sandbox spec sync status out, Beside pid event := by
  intro event hmem
  refine beside_of_inert ?_
  simp only [cloneCalls, List.mem_cons, List.not_mem_nil, or_false] at hmem
  rcases hmem with rfl | rfl | rfl | rfl | rfl <;> trivial

theorem not_reaped_of_beside (h : ∀ event ∈ t, Beside pid event) : ¬ Reaped pid t :=
  fun ⟨event, hmem, hwaits⟩ => (h event hmem).waits hwaits

/-- A run that has created a child leaves it reaped exactly when no failure let the parent return
past it. -/
theorem reaped_iff {flags : UInt64} {pid pidfd : CInt} {r : Except Error CInt}
    (h : LoopRuns Op.Final (runOnceMode texts sandbox) (runOnceMode texts sandbox .start) t
      (.returned r)) (hchild : ⟨.clone3 flags, .ok (some (pid, pidfd))⟩ ∈ t) :
    Reaped pid t ↔ Supervised pid pidfd t := by
  rcases once_returned h with ⟨e, -, hspawn⟩ | ⟨child, t₁, t₂, rfl, hspawn, hsetup⟩
  · rcases spawn_returned hspawn with ⟨_, _, _, _, hr, -⟩ |
      ⟨e', -, ⟨spec, sync, status, out, hout, rfl⟩ | hidle⟩
    · cases hr
    · refine iff_of_false (not_reaped_of_beside inert_cloneCalls) fun hsup => ?_
      simp only [cloneCalls, List.mem_cons, List.not_mem_nil, or_false] at hchild
      rcases hchild with heq | heq | heq | heq | heq <;> cases heq
      exact hout pid pidfd ⟨rfl, hsup.pidfd_valid⟩
    · rcases hidle _ hchild with hplain | ⟨mask, e, heq⟩
      · exact hplain.elim
      · cases heq
  · rcases spawn_returned hspawn with ⟨child', spec, sync, status, hr, hpidfd, rfl⟩ | ⟨e, hr, -⟩
    swap
    · cases hr
    cases hr
    have hpid : pid = child.pid ∧ pidfd = child.pidfd := by
      simp only [cloneCalls, List.mem_append, List.mem_cons, List.not_mem_nil, or_false] at hchild
      rcases hchild with (((heq | heq | heq | heq | heq) | heq | heq) | hmem) | heq
      all_goals first | cases heq; exact ⟨rfl, rfl⟩ | cases heq | skip
      exact absurd (setup_plain hsetup _ hmem) id
    obtain ⟨rfl, rfl⟩ := hpid
    have hbefore : ∀ event ∈ cloneCalls sandbox spec sync status
        (.ok (some (child.pid, child.pidfd))) ++ [⟨.close sync.1, ()⟩, ⟨.close status.2, ()⟩],
        Beside child.pid event := by
      refine List.forall_mem_append.2 ⟨inert_cloneCalls, List.forall_mem_cons.2
        ⟨beside_of_inert trivial, List.forall_mem_singleton.2 (beside_of_inert trivial)⟩⟩
    have hwhen := reapedWhen_append _ [⟨.threadUnblock supervisionSignalMask, ()⟩]
      (reapedWhen_setup hsetup) hbefore
      (List.forall_mem_singleton.2 (beside_of_inert trivial))
    exact hwhen.trans ⟨fun h => ⟨hpidfd, h.1, h.2⟩, fun h => ⟨h.no_stray, h.poll_fails⟩⟩

end Child

/-- The calls around a child that the parent lets go on. -/
def startedCalls (before : List (Event Op.Out)) : List (Event Op.Out) :=
  cloneCalls bareSandbox bareSpec (3, 4) (5, 6) (.ok (some (100, 7))) ++
    ([⟨.close 3, ()⟩, ⟨.close 6, ()⟩] ++ before ++
      [⟨.threadUnblock supervisionSignalMask, ()⟩])

/-- The parent cannot write the id maps, and waits for the child. -/
def unmappedCalls : List (Event Op.Out) :=
  startedCalls [⟨.writeFile s!"/proc/{(100 : CInt)}/setgroups" "deny", .error 13⟩, ⟨.close 4, ()⟩,
    ⟨.waitpid 100 false, .ok (.exited 1)⟩]

theorem unmapped_runs :
    LoopRuns Op.Final (runOnceMode silentTexts bareSandbox)
      (runOnceMode silentTexts bareSandbox .start) unmappedCalls
      (.returned (.error (.setup .idMap
        ("failed to write " ++ s!"/proc/{(100 : CInt)}/setgroups") 13))) :=
  .returned (.call _ _ _ (.call _ _ _ (.call _ _ _ (.call _ _ _ (.call _ _ _ (.call _ _ _
    (.call _ _ _ (.call _ _ _ (.call _ _ _ (.call _ _ _ (.call _ _ _ (.ret _))))))))))))

/-- With a child, a mask with none of the seven signals comes back. -/
theorem unmapped_restored : maskAfter {13, 20} unmappedCalls = {13, 20} := by
  have hmade : ChildMade unmappedCalls :=
    ⟨cloneFlags bareSandbox.namespaces ||| CLONE_PIDFD, .ok (some (100, 7)), 100, 7,
      by simp [unmappedCalls, startedCalls, cloneCalls], rfl, by decide⟩
  exact (mask_restored_iff {13, 20} unmapped_runs).2
    ⟨fun _ => by decide, fun _ hnot => absurd hmade hnot⟩

theorem unmapped_reaped : Reaped 100 unmappedCalls := by
  have hchild : (⟨.clone3 (cloneFlags bareSandbox.namespaces ||| CLONE_PIDFD),
      .ok (some (100, 7))⟩ : Event Op.Out) ∈ unmappedCalls := by
    simp [unmappedCalls, startedCalls, cloneCalls]
  refine (reaped_iff unmapped_runs hchild).2 ⟨by decide, ?_, ?_⟩
  · simp [unmappedCalls, startedCalls, cloneCalls, Strays, Reaps]
  · simp [unmappedCalls, startedCalls, cloneCalls, PollFails]

/-- The child dies before it reads the byte that lets it go on. -/
def unstartedCalls : List (Event Op.Out) :=
  startedCalls [⟨.writeFile s!"/proc/{(100 : CInt)}/setgroups" "deny", .ok ()⟩,
    ⟨.writeFile s!"/proc/{(100 : CInt)}/uid_map" bareSandbox.uidMap.content, .ok ()⟩,
    ⟨.writeFile s!"/proc/{(100 : CInt)}/gid_map" bareSandbox.gidMap.content, .ok ()⟩,
    ⟨.write 4, .error 32⟩]

/-- The parent returns, and the child stays a zombie. -/
theorem unstarted_not_reaped :
    LoopRuns Op.Final (runOnceMode silentTexts bareSandbox)
      (runOnceMode silentTexts bareSandbox .start) unstartedCalls
      (.returned (.error (.setup .clone "failed to signal child via sync pipe" 32))) ∧
    ¬ Reaped 100 unstartedCalls := by
  refine ⟨.returned (.call _ _ _ (.call _ _ _ (.call _ _ _ (.call _ _ _ (.call _ _ _ (.call _ _ _
    (.call _ _ _ (.call _ _ _ (.call _ _ _ (.call _ _ _ (.call _ _ _ (.call _ _ _
    (.ret _))))))))))))), ?_⟩
  simp [unstartedCalls, startedCalls, cloneCalls, Reaped, Waits]

end Pnut.Parent
