import Pnut.Child.Process
import Pnut.Proofs.Closing

/-!
# The record in the status pipe

A run that ends in `exit` has failed at a stage, or in `execve`. As long as no action on the
descriptors is about the status descriptor, no call of the run takes it away before the record is
written: the walk that closes the others spares it, and what the other stages open are other
descriptors. And as long as the filters let the write go on, the record is all that is in the pipe.
-/

namespace Pnut.Child

open Program

/-- The descriptor that an action replaces or closes. -/
def FdAction.target : FdAction → CInt
  | .dup2 _ dst => dst
  | .close fd => fd

/-- A run that failed, with the record of its failure. -/
inductive Fails (target : Target) (spec : ChildSpec) : Trace → ChildFailure → Prop
  | stage {setup report : Trace} {f : Failure} : Performs (plan target spec) setup (some f) →
      Fails target spec (setup ++ report) f.record
  | exec {setup report : Trace} {err : Errno} : Performs (plan target spec) setup none →
      Fails target spec (setup ++ ⟨.execve spec.exec spec.envp, err⟩ :: report)
        (.new .exec err 0 (execExit err))

/-! ## What the plan leaves alone -/

/-- The size of a record. -/
def RECORD_SIZE : UInt64 := 16

/-- A call that leaves a descriptor open, writes nothing, and installs no filter that would stop
the record. -/
def Prim.Spares (fd : CInt) : Prim → Prop
  | .dup2 _ dst => dst ≠ fd
  | .close fd' => fd' ≠ fd
  | .closeRange first last => ¬ (first ≤ fd.toUInt32 ∧ fd.toUInt32 ≤ last)
  | .writeAll _ _ => False
  | .installSeccomp spec => LetsWrite spec.program fd RECORD_SIZE
  | _ => True

/-- What a spec has to keep to. -/
structure Sparing (spec : ChildSpec) (fd : CInt) : Prop where
  nonneg : 0 ≤ fd
  status : spec.statusFd = some fd
  sync : ∀ fd' ∈ spec.syncFd, fd' ≠ fd
  actions : ∀ action ∈ spec.fds.actions, action.target ≠ fd
  seccomp : ∀ s ∈ spec.seccomp, LetsWrite s.program fd RECORD_SIZE
  completion : spec.completion = none

section Plan

variable {fd : CInt}

/-- The calls of the checks spare the descriptor. -/
def AllSpare (fd : CInt) (checks : List SetupCheck) : Prop :=
  ∀ op judge, Check.call op judge ∈ checks → op.Spares fd

theorem allSpare_nil : AllSpare fd [] := fun _ _ h => absurd h List.not_mem_nil

theorem allSpare_refuse (f : Failure) : AllSpare fd [.refuse f] := by
  intro op judge h
  cases List.mem_singleton.1 h

theorem AllSpare.cons {op : Prim} {judge : op.Out → Option Failure} {rest : List SetupCheck}
    (hop : op.Spares fd) (h : AllSpare fd rest) : AllSpare fd (.call op judge :: rest) := by
  intro op' judge' hmem
  rcases List.mem_cons.1 hmem with heq | hmem
  · cases heq
    exact hop
  · exact h op' judge' hmem

theorem allSpare_one {op : Prim} {judge : op.Out → Option Failure} (hop : op.Spares fd) :
    AllSpare fd [.call op judge] := AllSpare.cons hop allSpare_nil

theorem allSpare_elim {α : Type} {o : Option α} {checks : α → List SetupCheck}
    (h : ∀ a ∈ o, AllSpare fd (checks a)) : AllSpare fd (o.elim [] checks) := by
  rcases o with _ | a
  · exact allSpare_nil
  · exact h a rfl

theorem allSpare_ite {c : Bool} {checks checks' : List SetupCheck} (h : AllSpare fd checks)
    (h' : AllSpare fd checks') : AllSpare fd (if c then checks else checks') := by
  split_ifs
  · exact h
  · exact h'

theorem allSpare_actions {actions : List FdAction} (h : ∀ action ∈ actions, action.target ≠ fd) :
    AllSpare fd (actionChecks actions) := by
  induction actions with
  | nil => exact allSpare_nil
  | cons action rest ih =>
    obtain ⟨haction, hrest⟩ := List.forall_mem_cons.1 h
    rcases action with ⟨src, dst⟩ | fd'
    · unfold actionChecks
      split_ifs
      · exact (ih hrest).cons haction
      · exact ih hrest
    · exact (ih hrest).cons haction

/-- The walk closes nothing that it is told to keep in addition. -/
theorem not_covered_extra {keep extraKeep : List CInt} (hnonneg : 0 ≤ fd)
    (hextra : fd ∈ extraKeep) :
    ∀ range ∈ Fd.ranges keep extraKeep, ¬ (range.1 ≤ fd.toUInt32 ∧ fd.toUInt32 ≤ range.2) := by
  unfold Fd.ranges
  intro range hrange hin
  by_cases h : 3 ≤ fd
  · have hcovered := Fd.covered_iff keep extraKeep 3 ((three_le_toUInt32_iff hnonneg).2 h)
    exact hcovered.1 ⟨range, hrange, hin⟩ ((spared_iff keep extraKeep hnonneg h).2 (.inl hextra))
  · refine h ((three_le_toUInt32_iff hnonneg).1 ?_)
    exact UInt32.le_trans (Fd.le_of_mem_rangesFrom keep extraKeep 3 range hrange) hin.1

theorem allSpare_ranges {ranges : List (UInt32 × UInt32)}
    (h : ∀ range ∈ ranges, ¬ (range.1 ≤ fd.toUInt32 ∧ fd.toUInt32 ≤ range.2)) :
    AllSpare fd (rangeChecks ranges) := by
  intro op judge hmem
  obtain ⟨range, hrange, heq⟩ := List.mem_map.1 hmem
  cases heq
  exact h range hrange

theorem allSpare_tsc (target : Target) : AllSpare fd (tscChecks target) := by
  rcases target with _ | _
  · exact allSpare_one trivial
  · exact allSpare_refuse _

variable {target : Target} {spec : ChildSpec}

theorem Sparing.extraKeep (h : Sparing spec fd) : fd ∈ spec.extraKeep := by
  unfold ChildSpec.extraKeep
  rw [h.status]
  exact List.mem_cons_self ..

/-- Every call of the plan spares the status descriptor. -/
theorem Sparing.plan (h : Sparing spec fd) : AllSpare fd (Child.plan target spec) := by
  have hstages : ∀ checks ∈ setupStages target spec, AllSpare fd checks := by
    unfold setupStages
    simp only [List.forall_mem_cons]
    refine ⟨allSpare_ite allSpare_nil (allSpare_refuse _),
      allSpare_elim fun _ _ => allSpare_one trivial,
      allSpare_ite (allSpare_one trivial) allSpare_nil,
      allSpare_elim fun fd' hfd' => AllSpare.cons trivial (allSpare_one (h.sync fd' hfd')),
      allSpare_one trivial,
      allSpare_elim fun _ _ => allSpare_one trivial, allSpare_elim fun _ _ => allSpare_one trivial,
      allSpare_ite (allSpare_one trivial) allSpare_nil,
      allSpare_elim fun _ _ => allSpare_one trivial, allSpare_elim fun _ _ => allSpare_one trivial,
      allSpare_elim fun _ _ => allSpare_one trivial, allSpare_elim fun _ _ => allSpare_one trivial,
      allSpare_ite (allSpare_one trivial) allSpare_nil, allSpare_actions h.actions,
      allSpare_ite (allSpare_ranges (not_covered_extra h.nonneg h.extraKeep)) allSpare_nil,
      allSpare_ite (allSpare_tsc target) allSpare_nil,
      allSpare_ite (allSpare_one trivial) allSpare_nil,
      allSpare_elim fun _ _ => allSpare_one trivial,
      allSpare_elim fun s hs => allSpare_one (h.seccomp s hs),
      allSpare_elim fun _ _ => allSpare_one trivial, fun _ h => absurd h List.not_mem_nil⟩
  intro op judge hmem
  rcases List.mem_append.1 hmem with hmem | hmem
  · obtain ⟨checks, hchecks, hmem⟩ := List.mem_flatten.1 hmem
    exact hstages checks hchecks op judge hmem
  · unfold completionStage at hmem
    rw [h.completion] at hmem
    cases hmem

end Plan

/-! ## What the kernel makes of it -/

section Kernel

variable {File : Type} {status : File} {fd : CInt} {sent : List Payload}

/-- The descriptor is the pipe's, nothing would stop the record, and so much has been sent. -/
structure Ready (status : File) (fd : CInt) (sent : List Payload) (w : Process File) : Prop where
  get : ∃ o, w.table.get fd = some o ∧ o.file = status
  filters : ∀ program ∈ w.filters, LetsWrite program fd RECORD_SIZE
  sent : w.sent = sent

theorem close_get (table : Table File) {fd' : CInt} (hne : fd' ≠ fd) :
    (table.close fd').get fd = table.get fd := by
  unfold Table.close
  rw [Table.filter_get]
  cases table.get fd with
  | none => rfl
  | some o => exact Option.filter_some_pos (decide_eq_true hne.symm)

theorem kernel_get {table table' : Table File} {op : Prim} {out : op.Out}
    (h : Kernel table op out table') (hop : op.Spares fd) : table'.get fd = table.get fd := by
  cases h with
  | dup2 hdst => exact if_neg (Ne.symm hop)
  | dup2Failed => rfl
  | close => exact close_get table hop
  | closeFailed => exact close_get table hop
  | closeRange => rw [Fd.closeRange_get, if_neg hop]
  | closeRangeInvalid => rfl

/-- What spares the descriptor keeps it ready. -/
theorem Ready.step {w w' : Process File} (h : Ready status fd sent w) {op : Prim} {out : op.Out}
    (hserves : Serves status w op out w') (hop : op.Spares fd) : Ready status fd sent w' := by
  obtain ⟨o, hget, hfile⟩ := h.get
  cases hserves with
  | fds hkernel => exact ⟨⟨o, (kernel_get hkernel hop).trans hget, hfile⟩, h.filters, h.sent⟩
  | noCloseRange => exact h
  | written => exact hop.elim
  | stopped => exact hop.elim
  | elsewhere => exact hop.elim
  | installed => exact ⟨h.get, List.forall_mem_cons.2 ⟨hop, h.filters⟩, h.sent⟩
  | notInstalled => exact h
  | aside _ _ hsame =>
    have hopen : (w.table.get fd).isSome := by rw [hget]; rfl
    exact ⟨⟨o, (hsame fd hopen).trans hget, hfile⟩, h.filters, h.sent⟩

/-- From a descriptor that is ready, the record goes into the pipe. -/
theorem Ready.written {w w' : Process File} (h : Ready status fd sent w) {record : ChildFailure}
    {out : Except Errno Unit}
    (hserves : Serves status w (.writeAll fd (.failure record)) out w') :
    out = .ok () ∧ w'.sent = sent ++ [.failure record] := by
  obtain ⟨o, hget, hfile⟩ := h.get
  cases hserves with
  | fds hkernel => cases hkernel
  | written => exact ⟨rfl, congrArg (· ++ _) h.sent⟩
  | stopped _ hmem hstops => exact absurd (h.filters _ hmem) hstops
  | elsewhere _ helse => exact absurd hfile (helse o hget)
  | aside _ haside => exact haside.elim

theorem Ready.reported {w w' : Process File} (h : Ready status fd sent w) {record : ChildFailure}
    {texts : List String} {report : Trace} (hreport : Reported (some fd) record texts report)
    (hserves : Answered (Serves status) w report w') :
    report = [⟨.writeAll fd (.failure record), .ok ()⟩] ∧
      w'.sent = sent ++ [.failure record] := by
  obtain ⟨out, rest, rfl, hrest⟩ := hreport
  obtain ⟨w₁, hwrite, hafter⟩ := hserves.cons_inv
  obtain ⟨rfl, hsent⟩ := h.written hwrite
  obtain rfl : rest = [] := hrest
  obtain rfl := hafter.nil_inv
  exact ⟨rfl, hsent⟩

end Kernel

/-! ## The run -/

/-- A run that ends in `exit` has failed, and its record is what it has sent, to the status
descriptor alone. -/
theorem sent_record {File : Type} {status : File} {target : Target} {spec : ChildSpec} {t : Trace}
    {code : CInt} {fd : CInt} {w w' : Process File} (hspec : Sparing spec fd)
    (hrun : Runs Prim.Final (run target spec) t (.left (.exit code)))
    (hready : Ready status fd [] w) (hserves : Answered (Serves status) w t w') :
    ∃ stage err detail exitCode, Fails target spec t (.new stage err detail exitCode) ∧
      w'.sent = [.failure (.new stage err detail exitCode)] ∧
      ∀ fd' record out, ⟨.writeAll fd' (.failure record), out⟩ ∈ t → fd' = fd := by
  have hsetup : ∀ {setup : Trace} {r : Option Failure} {w₁ : Process File},
      Performs (plan target spec) setup r → Answered (Serves status) w setup w₁ →
      Ready status fd [] w₁ ∧ ∀ fd' record out,
        (⟨.writeAll fd' (.failure record), out⟩ : Event Prim.Out) ∉ setup := by
    intro setup r w₁ hplan hanswered
    have hspares : ∀ op out, (⟨op, out⟩ : Event Prim.Out) ∈ setup → op.Spares fd := by
      intro op out hmem
      obtain ⟨judge, hcheck⟩ := hplan.mem_calls hmem
      exact hspec.plan op judge hcheck
    refine ⟨hanswered.keeps (fun event hmem w₂ w₃ h hop => ?_) hready,
      fun fd' record out hmem => hspares _ _ hmem⟩
    exact h.step hop (hspares event.1 event.2 hmem)
  have honly : ∀ {fd' record record'} {out : Except Errno Unit},
      (⟨.writeAll fd' (.failure record), out⟩ : Event Prim.Out) ∈
        [⟨.writeAll fd (.failure record'), (.ok () : Except Errno Unit)⟩] → fd' = fd := by
    intro fd' record record' out hmem
    cases List.mem_singleton.1 hmem
    rfl
  generalize he : Ending.left (Prim.exit code) = e at hrun
  cases run_shape hrun with
  | @stopped setup report f hplan hreport =>
    obtain ⟨w₁, hanswered, hrest⟩ := hserves.append_inv
    obtain ⟨hready, hsilent⟩ := hsetup hplan hanswered
    rw [hspec.status] at hreport
    obtain ⟨rfl, hsent⟩ := hready.reported hreport hrest
    refine ⟨f.stage, f.errno, f.detail, EXIT_SETUP_FAILED, .stage hplan, hsent, ?_⟩
    intro fd' record out hmem
    rcases List.mem_append.1 hmem with hmem | hmem
    · exact absurd hmem (hsilent fd' record out)
    · exact honly hmem
  | left => cases he
  | @execFailed setup report err hplan hreport =>
    obtain ⟨w₁, hanswered, hrest⟩ := hserves.append_inv
    obtain ⟨hready, hsilent⟩ := hsetup hplan hanswered
    obtain ⟨w₂, hexec, hrest⟩ := hrest.cons_inv
    rw [hspec.status] at hreport
    obtain ⟨rfl, hsent⟩ := (hready.step hexec trivial).reported hreport hrest
    refine ⟨.exec, err, 0, execExit err, .exec hplan, hsent, ?_⟩
    intro fd' record out hmem
    rcases List.mem_append.1 hmem with hmem | hmem
    · exact absurd hmem (hsilent fd' record out)
    · rcases List.mem_cons.1 hmem with heq | hmem
      · cases heq
      · exact honly hmem

end Pnut.Child
