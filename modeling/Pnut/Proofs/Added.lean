import Pnut.Proofs.Startup

/-!
# What the sandbox adds to a policy

The program of a sandbox is that of the user's policy with a few rules behind it. What it returns is
read off the user's policy: a rule of the user's whose filter is true decides; then the guard, for
calls with the flags of a new namespace; then a rule of the user's without a filter; then what is
added for the calls that start the command, and for `clone3`; then the user's default. No other call
is touched. The user's filters are read as their code reads them, which for some calls is not what
they say of the whole arguments.
-/

namespace Pnut.Sandbox

open Kafel Kafel.Libc
open Bpf (SockFilter SeccompData)

/-! ## Two lists of rules -/

section Select

variable {truth : Expr → Bool} {entries added : List PolicyEntry} {default : Action}

/-- The rules behind others decide what these leave open: by a filter, if none of these has one that
holds; without one, if none of these is without one. -/
theorem selectAction_append :
    selectAction truth (entries ++ added) default =
      match entries.find? fun e => e.filter.any truth with
      | some e => e.action
      | none =>
        match added.find? fun e => e.filter.any truth with
        | some e => e.action
        | none =>
          match entries.find? fun e => e.filter.isNone with
          | some e => e.action
          | none => selectAction truth added default := by
  unfold selectAction
  rw [List.find?_append, List.find?_append]
  cases hfirst : entries.find? fun e => e.filter.any truth with
  | some e => simp
  | none =>
    cases hadded : added.find? fun e => e.filter.any truth with
    | some e => simp
    | none => cases hnone : entries.find? fun e => e.filter.isNone <;> simp

end Select

/-! ## The rules that are added -/

/-- The rules behind the user's: for the calls that start the command, and those of the guard. -/
def addedEntries (startup block : Bool) : List PolicyEntry :=
  (if startup then startupNumbers.map allowEntry else []) ++ if block then guardEntries else []

def extended (startup block : Bool) (policy : Policy) : Policy :=
  { policy with entries := policy.entries ++ addedEntries startup block }

/-- The guard denies the call by its flags. -/
def GuardDenies (block : Bool) (d : SeccompData) : Prop :=
  block = true ∧ (d.nr = nrClone ∨ d.nr = nrUnshare) ∧ argOf d.args 0 &&& UNSAFE_NS_FLAGS ≠ 0

instance (block : Bool) (d : SeccompData) : Decidable (GuardDenies block d) := by
  unfold GuardDenies
  infer_instance

/-- What a call gets that no rule of the user's decides. -/
def addedAction (startup block : Bool) (nr : UInt32) (default : Action) : Action :=
  if startup ∧ nr ∈ startupNumbers then .allow
  else if block ∧ nr = nrClone3 then .errno ENOSYS
  else default

/-- What the sandbox's program returns, read off the policy of the user, by the truth of the user's
filters. -/
def extendedAction (truth : Expr → Bool) (startup block : Bool) (policy : Policy)
    (d : SeccompData) : Action :=
  match (policy.entriesFor d.nr).find? fun e => e.filter.any truth with
  | some e => e.action
  | none =>
    if GuardDenies block d then .errno EPERM
    else
      match (policy.entriesFor d.nr).find? fun e => e.filter.isNone with
      | some e => e.action
      | none => addedAction startup block d.nr policy.defaultAction

/-- The calls that the sandbox adds rules for. -/
def touchedNumbers : List UInt32 := startupNumbers ++ [nrClone3, nrClone, nrUnshare]

section Added

variable {truth truth' : Expr → Bool} {startup block : Bool} {policy : Policy} {d : SeccompData}
  {nr : UInt32}

theorem entriesFor_extended :
    (extended startup block policy).entriesFor nr =
      policy.entriesFor nr ++ (addedEntries startup block).filter (·.syscallNumber = nr) :=
  List.filter_append ..

/-- The numbers of the added rules are all different. -/
theorem filter_added (nr : UInt32) :
    (addedEntries startup block).filter (·.syscallNumber = nr) =
      if startup ∧ nr ∈ startupNumbers then [allowEntry nr]
      else if block ∧ nr = nrClone3 then [⟨nr, .errno ENOSYS, none⟩]
      else if block ∧ (nr = nrClone ∨ nr = nrUnshare) then [⟨nr, .errno EPERM, some flagged⟩]
      else [] := by
  by_cases hmem : nr ∈ touchedNumbers
  · simp only [touchedNumbers, startupNumbers, List.cons_append, List.nil_append, List.mem_cons,
      List.not_mem_nil, or_false] at hmem
    cases startup <;> cases block <;> rcases hmem with rfl | rfl | rfl | rfl | rfl | rfl <;> rfl
  · have hnone : (addedEntries startup block).filter (·.syscallNumber = nr) = [] := by
      refine List.filter_eq_nil_iff.2 fun e he heq => hmem ?_
      obtain rfl := of_decide_eq_true heq
      revert e
      cases startup <;> cases block <;> decide
    have hstartup : nr ∉ startupNumbers := fun h => hmem (List.mem_append_left _ h)
    have hguard : nr ≠ nrClone3 ∧ nr ≠ nrClone ∧ nr ≠ nrUnshare := by
      refine ⟨?_, ?_, ?_⟩ <;> rintro rfl <;> exact hmem (by decide)
    simp [hnone, hstartup, hguard]

/-- The selection of the extended policy. -/
theorem select_extended (d : SeccompData) :
    (extended startup block policy).select (chainTruth (readWord (argOf d.args))) d.nr =
      extendedAction (chainTruth (readWord (argOf d.args))) startup block policy d := by
  have hdefault : (extended startup block policy).defaultAction = policy.defaultAction := rfl
  rw [Policy.select, entriesFor_extended, selectAction_append, filter_added]
  unfold extendedAction
  cases hfirst : (policy.entriesFor d.nr).find? fun e =>
      e.filter.any (chainTruth (readWord (argOf d.args))) with
  | some e => rfl
  | none =>
    have hdisjoint : d.nr ∈ startupNumbers ∨ d.nr = nrClone3 →
        ¬ (d.nr = nrClone ∨ d.nr = nrUnshare) := by
      rintro (h | h)
      · simp only [startupNumbers, List.mem_cons, List.not_mem_nil, or_false] at h
        rcases h with h | h | h <;> rw [h] <;> decide
      · rw [h]
        decide
    by_cases hstartup : startup ∧ d.nr ∈ startupNumbers
    · have hguard : ¬ GuardDenies block d := fun h => hdisjoint (.inl hstartup.2) h.2.1
      simp [hstartup, hguard, addedAction, allowEntry, selectAction]
    · rw [if_neg hstartup]
      by_cases hclone3 : block ∧ d.nr = nrClone3
      · have hguard : ¬ GuardDenies block d := fun h => hdisjoint (.inr hclone3.2) h.2.1
        rw [if_pos hclone3, if_neg hguard]
        simp only [addedAction, if_neg hstartup, if_pos hclone3]
        rfl
      · rw [if_neg hclone3]
        by_cases hflagged : block ∧ (d.nr = nrClone ∨ d.nr = nrUnshare)
        · rw [if_pos hflagged]
          have htruth := chainTruth_flagged d.args
          by_cases hflags : d.args 0 &&& UNSAFE_NS_FLAGS ≠ 0
          · have hguard : GuardDenies block d := ⟨hflagged.1, hflagged.2, hflags⟩
            simp [hguard, htruth, hflags]
          · have hguard : ¬ GuardDenies block d := fun h => hflags h.2.2
            simp [hguard, htruth, not_not.1 hflags, addedAction, hstartup, hclone3, selectAction,
              hdefault]
        · have hguard : ¬ GuardDenies block d := fun h => hflagged ⟨h.1, h.2.1⟩
          simp [hflagged, hguard, addedAction, hstartup, hclone3, selectAction, hdefault]

/-- A call that the sandbox adds no rule for is left to the user's policy. -/
theorem extendedAction_untouched (h : d.nr ∉ touchedNumbers) :
    extendedAction truth startup block policy d = policy.select truth d.nr := by
  have hstartup : d.nr ∉ startupNumbers := fun hmem => h (List.mem_append_left _ hmem)
  have hclone3 : d.nr ≠ nrClone3 := fun heq => h (heq ▸ by decide)
  have hguard : ¬ GuardDenies block d := by
    rintro ⟨-, heq | heq, -⟩ <;> exact h (heq ▸ by decide)
  unfold extendedAction Policy.select selectAction
  rewrite [if_neg hguard, addedAction, if_neg fun hs => hstartup hs.2,
    if_neg fun hc => hclone3 hc.2]
  rfl

/-- The user's filters for the call are what counts of the truth. -/
theorem extendedAction_congr
    (h : ∀ e ∈ policy.entriesFor d.nr, ∀ filter ∈ e.filter, truth filter = truth' filter) :
    extendedAction truth startup block policy d = extendedAction truth' startup block policy d := by
  have hfind : ((policy.entriesFor d.nr).find? fun e => e.filter.any truth) =
      (policy.entriesFor d.nr).find? fun e => e.filter.any truth' := by
    refine List.find?_congr fun e he => ?_
    cases hfilter : e.filter with
    | none => rfl
    | some filter => exact h e he filter hfilter
  unfold extendedAction
  rw [hfind]

end Added

/-! ## The program of the sandbox -/

section Prepare

variable {b : Build} {pest : Pest} {prelude : List Char} {fs : FileSystem}
  {source : Option SeccompSource} {nsConfig : Namespaces} {policy : Policy}
  {prog : List SockFilter}

theorem extended_eq_compiled (block : Bool) (policy : Policy) :
    extended true block policy = compiled block policy := by
  simp [extended, compiled, addedEntries]

/-- The text that is compiled is the user's, and the policy that is compiled extends it. -/
theorem prepareProgram_extended
    (h : prepareProgram b pest prelude fs source nsConfig = .ok (some prog)) :
    ∃ policy, userPolicy b pest prelude fs source = .ok policy ∧
      (extended source.isSome (!nsConfig.allowNestedUserns) policy).codegen b = .ok prog := by
  unfold prepareProgram at h
  rcases source with _ | policyText | policyPath
  · cases hns : nsConfig.allowNestedUserns with
    | true => simp [hns, pure, Except.pure] at h
    | false =>
      simp only [hns, Bool.not_false, if_true, bind_eq_ok, injectUsernsDeny_eq, mapErr_eq_ok] at h
      obtain ⟨policy, heq, program, hcodegen, hprog⟩ := h
      obtain rfl := Except.ok.inj heq
      obtain rfl : program = prog := by simpa [pure, Except.pure] using hprog
      exact ⟨⟨[], .allow⟩, rfl, hcodegen⟩
  · obtain ⟨policy, hparse, hcodegen⟩ := compilePolicy_compiled h
    exact ⟨policy, hparse, by rwa [Option.isSome_some, extended_eq_compiled]⟩
  · rcases hread : fs.readToString policyPath with e | contents <;> simp only [hread] at h
    · cases h
    · obtain ⟨policy, hparse, hcodegen⟩ := compilePolicy_compiled h
      refine ⟨policy, ?_, by rwa [Option.isSome_some, extended_eq_compiled]⟩
      simp only [userPolicy, hread]
      exact hparse

theorem extended_named {startup block : Bool} (h : ∀ e ∈ policy.entries, e.Named) :
    ∀ e ∈ (extended startup block policy).entries, e.Named := by
  intro e he
  have hguarded : e ∈ (guarded (some (.inline [])) policy).entries → e.Named := guarded_named h e
  unfold guarded at hguarded
  simp only [extended, addedEntries, List.mem_append] at he hguarded
  refine hguarded ?_
  rcases he with he | he | he
  · exact .inl (.inl he)
  · cases startup with
    | true => exact .inl (.inr he)
    | false => cases he
  · cases block with
    | true => exact .inr he
    | false => cases he

/-- What the program of a sandbox returns for a call, whatever the text of its policy: what is read
off the user's policy, its filters read as their code reads them; over the whole arguments, where
the code reads the filters for the call alike. A call that no rule is added for gets what the
program of the user's policy alone returns. -/
theorem prepareProgram_exec
    (h : prepareProgram b pest prelude fs source nsConfig = .ok (some prog)) :
    ∃ policy, userPolicy b pest prelude fs source = .ok policy ∧
      ((b = .debug ∨
          (extended source.isSome (!nsConfig.allowNestedUserns) policy).JumpsFit) →
        ∀ d : SeccompData, d.arch = AUDIT_ARCH_X86_64 →
          Bpf.exec prog d.load = some (actionToRet
            (extendedAction (chainTruth (readWord (argOf d.args))) source.isSome
              (!nsConfig.allowNestedUserns) policy d)) ∧
          ((∀ e ∈ policy.entriesFor d.nr, ∀ filter ∈ e.filter,
              chainTruth (readWord (argOf d.args)) filter = filter.holds (argOf d.args)) →
            Bpf.exec prog d.load = some (actionToRet
              (extendedAction (Expr.holds (argOf d.args)) source.isSome
                (!nsConfig.allowNestedUserns) policy d))) ∧
          ∀ alone, policy.codegen b = .ok alone → (b = .debug ∨ policy.JumpsFit) →
            d.nr ∉ touchedNumbers → Bpf.exec prog d.load = Bpf.exec alone d.load) := by
  obtain ⟨policy, huser, hcodegen⟩ := prepareProgram_extended h
  refine ⟨policy, huser, fun hfit d harch => ?_⟩
  have hnamed := userPolicy_named huser
  have hexec : Bpf.exec prog d.load = some (actionToRet
      (extendedAction (chainTruth (readWord (argOf d.args))) source.isSome
        (!nsConfig.allowNestedUserns) policy d)) := by
    rw [exec_of_named (extended_named hnamed) hcodegen hfit harch, select_extended]
  refine ⟨hexec, fun halike => ?_, fun alone halone hfit' hnr => ?_⟩
  · rw [hexec, extendedAction_congr halike]
  · rw [hexec, exec_of_named hnamed halone hfit' harch, extendedAction_untouched hnr]

end Prepare

/-- A rule with a filter and one without, for the same call. -/
def ioctlSource : SeccompSource :=
  .inline ("POLICY p { ERRNO(5) { ioctl } ALLOW { ioctl(_, r) { (r & 7) == 2 } } LOG {clone} } " ++
    "USE p DEFAULT KILL").toList

def ioctlProgram : Option (List SockFilter) :=
  (prepareProgram .debug (Pest.interpreter silentError) preludeExit noFiles (some ioctlSource)
    {}).toOption.join

/-- The policy compiles. -/
theorem ioctlProgram_some : ∃ prog, ioctlProgram = some prog ∧
    prepareProgram .debug (Pest.interpreter silentError) preludeExit noFiles (some ioctlSource)
      {} = .ok (some prog) := by
  have hprog : ioctlProgram.isSome = true := by decide +kernel
  obtain ⟨prog, hsome⟩ := Option.isSome_iff_exists.1 hprog
  refine ⟨prog, hsome, ?_⟩
  unfold ioctlProgram at hsome
  rcases h : prepareProgram .debug (Pest.interpreter silentError) preludeExit noFiles
    (some ioctlSource) {} with e | p <;> rw [h] at hsome
  · cases hsome
  · exact congrArg Except.ok hsome

theorem ioctlProgram_exec : ∃ prog policy, ioctlProgram = some prog ∧
    userPolicy .debug (Pest.interpreter silentError) preludeExit noFiles (some ioctlSource) =
      .ok policy ∧
    ∀ d : SeccompData, d.arch = AUDIT_ARCH_X86_64 →
      Bpf.exec prog d.load = some (actionToRet
        (extendedAction (chainTruth (readWord (argOf d.args))) true true policy d)) := by
  obtain ⟨prog, hsome, hok⟩ := ioctlProgram_some
  obtain ⟨policy, huser, hexec⟩ := prepareProgram_exec hok
  exact ⟨prog, policy, hsome, huser, fun d harch => (hexec (.inl rfl) d harch).1⟩

end Pnut.Sandbox
