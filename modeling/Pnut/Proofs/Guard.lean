import Pnut.Proofs.Accepted
import Pnut.Sandbox.Seccomp

/-!
# The guard against nested namespaces

The rules that deny a nested namespace come after the user's, and an earlier rule for the same
number wins: the guard holds exactly when the user's policy leaves the calls to it.
-/

namespace Pnut.Sandbox

open Kafel Kafel.Libc
open Bpf (SockFilter SeccompData)

/-! ## The policy that is compiled -/

theorem mapErr_eq_ok {α : Type} {f : Kafel.Error → BuildError} {r : Kafel.Result α} {a : α} :
    mapErr f r = .ok a ↔ r = .ok a := by
  rcases r with (e | m) | a' <;> simp [mapErr]

theorem bind_eq_ok {α β : Type} {x : Result α} {f : α → Result β} {r : β} :
    (x >>= f) = .ok r ↔ ∃ a, x = .ok a ∧ f a = .ok r := by
  rcases x with e | a <;> simp [bind, Except.bind]

def nrClone : UInt32 := 56
def nrUnshare : UInt32 := 272
def nrClone3 : UInt32 := 435

/-- `(arg0 & UNSAFE_NS_FLAGS) != 0`. -/
def flagged : Expr := .maskedCompare 0 (.constant UNSAFE_NS_FLAGS) .ne (.constant 0)

def guardEntries : List PolicyEntry :=
  [⟨nrClone3, .errno ENOSYS, none⟩, ⟨nrClone, .errno EPERM, some flagged⟩,
    ⟨nrUnshare, .errno EPERM, some flagged⟩]

/-- The rules that are added for a policy of the user. -/
def startupEntries : Option SeccompSource → List PolicyEntry
  | some _ => [⟨59, .allow, none⟩, ⟨322, .allow, none⟩, ⟨80, .allow, none⟩]
  | none => []

theorem injectUsernsDeny_eq (policy : Policy) :
    injectUsernsDeny policy = .ok { policy with entries := policy.entries ++ guardEntries } := by
  have hclone3 : resolveSyscall "clone3" = .ok nrClone3 := by decide +kernel
  have hclone : resolveSyscall "clone" = .ok nrClone := by decide +kernel
  have hunshare : resolveSyscall "unshare" = .ok nrUnshare := by decide +kernel
  unfold injectUsernsDeny
  rw [mapErr_eq_ok]
  simp only [hclone3, hclone, hunshare, ok_bind, List.foldlM_cons, List.foldlM_nil, denyFlagged,
    pure, Except.pure, Policy.addEntry, List.append_assoc]
  rfl

theorem allowStartup_eq (policy : Policy) (source : SeccompSource) :
    ["execve", "execveat", "chdir"].foldlM allowStartup policy =
      .ok { policy with entries := policy.entries ++ startupEntries (some source) } := by
  have hexecve : resolveSyscall "execve" = .ok 59 := by decide +kernel
  have hexecveat : resolveSyscall "execveat" = .ok 322 := by decide +kernel
  have hchdir : resolveSyscall "chdir" = .ok 80 := by decide +kernel
  simp only [hexecve, hexecveat, hchdir, ok_bind, List.foldlM_cons, List.foldlM_nil, allowStartup,
    pure, Except.pure, Policy.addEntry, List.append_assoc]
  rfl

section Prepare

variable {b : Build} {pest : Pest} {prelude : List Char} {fs : FileSystem}

variable (b pest prelude fs) in
/-- What the user's text says, before the sandbox adds its rules. -/
def userPolicy : Option SeccompSource → Kafel.Result Policy
  | some (.inline policyText) => parsePolicy b pest policyText { prelude := some prelude }
  | some (.file policyPath) =>
    match fs.readToString policyPath with
    | .error _ => panicWith "no text"
    | .ok contents => parsePolicy b pest contents
      { prelude := some prelude
        includeResolver :=
          some (fs.resolve (String.ofList ((Path.parent policyPath.toList).getD ['.']))) }
  | none => .ok ⟨[], .allow⟩

/-- The user's policy with the rules of the sandbox behind it. -/
def guarded (source : Option SeccompSource) (policy : Policy) : Policy :=
  { policy with entries := policy.entries ++ startupEntries source ++ guardEntries }

theorem compilePolicy_ok {policyText : List Char} {baseDir filename : Option String}
    {source : SeccompSource} {prog : List SockFilter}
    (h : compilePolicy b pest prelude fs policyText baseDir filename true = .ok (some prog)) :
    ∃ policy, parsePolicy b pest policyText
        { prelude := some prelude, includeResolver := baseDir.map fs.resolve } = .ok policy ∧
      (guarded (some source) policy).codegen b = .ok prog := by
  unfold compilePolicy at h
  simp only [bind_eq_ok, mapErr_eq_ok] at h
  obtain ⟨policy, hparse, policy₁, hstartup, policy₂, hguard, program, hcodegen, heq⟩ := h
  rw [allowStartup_eq policy source] at hstartup
  obtain rfl := Except.ok.inj hstartup
  rw [if_pos trivial, injectUsernsDeny_eq] at hguard
  obtain rfl := Except.ok.inj hguard
  obtain rfl : program = prog := by simpa [pure, Except.pure] using heq
  exact ⟨policy, hparse, hcodegen⟩

theorem prepareProgram_ok {source : Option SeccompSource} {nsConfig : Namespaces}
    {prog : List SockFilter} (hns : nsConfig.allowNestedUserns = false)
    (h : prepareProgram b pest prelude fs source nsConfig = .ok (some prog)) :
    ∃ policy, userPolicy b pest prelude fs source = .ok policy ∧
      (guarded source policy).codegen b = .ok prog := by
  unfold prepareProgram at h
  rw [hns] at h
  rcases source with _ | policyText | policyPath
  · simp only [Bool.not_false, if_true, bind_eq_ok, injectUsernsDeny_eq, mapErr_eq_ok] at h
    obtain ⟨policy, heq, program, hcodegen, hprog⟩ := h
    obtain rfl := Except.ok.inj heq
    obtain rfl : program = prog := by simpa [pure, Except.pure] using hprog
    exact ⟨⟨[], .allow⟩, rfl, hcodegen⟩
  · exact compilePolicy_ok h
  · rcases hread : fs.readToString policyPath with e | contents <;> simp only [hread] at h
    · cases h
    · obtain ⟨policy, hparse, hcodegen⟩ := compilePolicy_ok h
      refine ⟨policy, ?_, hcodegen⟩
      simp only [userPolicy, hread]
      exact hparse

end Prepare

/-! ## Who decides a call -/

/-- The action lets the call through. -/
def Permits (action : Action) : Prop := action = .allow ∨ action = .log

section Select

variable {truth : Expr → Bool} {entries : List PolicyEntry} {deny : PolicyEntry} {default : Action}

variable (truth) in
/-- The entry that decides, if there is one: the first whose filter is true, else the first without
a filter. -/
def deciding (entries : List PolicyEntry) : Option PolicyEntry :=
  (entries.find? fun e => e.filter.any truth) <|> entries.find? fun e => e.filter.isNone

/-- A last entry without a filter decides what no entry before it does. -/
theorem selectAction_append_of_isNone (h : deny.filter = none) :
    selectAction truth (entries ++ [deny]) default =
      ((deciding truth entries).map (·.action)).getD deny.action := by
  unfold selectAction deciding
  rw [List.find?_append, List.find?_append]
  rcases hfind : List.find? (fun e => e.filter.any truth) entries with _ | e
  · rcases hnone : List.find? (fun e => e.filter.isNone) entries with _ | e
    · simp [hfind, hnone, h]
    · have hdeny : deny.filter.any truth = false := by simp [h]
      simp [hfind, hnone, hdeny]
  · simp [hfind]

/-- A last entry whose filter is true decides what no filter before it does. -/
theorem selectAction_append_of_true (h : deny.filter.any truth = true) :
    selectAction truth (entries ++ [deny]) default =
      ((entries.find? fun e => e.filter.any truth).map (·.action)).getD deny.action := by
  unfold selectAction
  rw [List.find?_append]
  rcases hfind : List.find? (fun e => e.filter.any truth) entries with _ | e
  · simp [hfind, h]
  · simp [hfind]

end Select

theorem entriesFor_guarded (source : Option SeccompSource) (policy : Policy) {nr : UInt32}
    {deny : PolicyEntry} (hstartup : (startupEntries source).filter (·.syscallNumber = nr) = [])
    (hguard : guardEntries.filter (·.syscallNumber = nr) = [deny]) :
    (guarded source policy).entriesFor nr = policy.entriesFor nr ++ [deny] := by
  unfold Policy.entriesFor guarded
  rw [List.filter_append, List.filter_append, hstartup, hguard, List.append_nil]

theorem startupEntries_filter (source : Option SeccompSource) {nr : UInt32}
    (h : nr = nrClone3 ∨ nr = nrClone ∨ nr = nrUnshare) :
    (startupEntries source).filter (·.syscallNumber = nr) = [] := by
  rcases source with _ | source
  · rfl
  · unfold startupEntries
    rcases h with rfl | rfl | rfl <;> rfl

/-- The flags of the mask all stand in the low word, which is what the code reads. -/
theorem chainTruth_flagged (args : Fin 6 → UInt64) :
    chainTruth (readWord (argOf args)) flagged = decide (args 0 &&& UNSAFE_NS_FLAGS ≠ 0) := by
  have hlow (v : UInt64) : v.toUInt32.toUInt64 &&& UNSAFE_NS_FLAGS = v &&& UNSAFE_NS_FLAGS := by
    apply UInt64.toNat_inj.1
    rw [UInt64.toNat_and, UInt64.toNat_and, UInt32.toNat_toUInt64, UInt64.toNat_toUInt32,
      ← Nat.and_two_pow_sub_one_eq_mod, Nat.and_assoc]
    rfl
  have hwide : needs64bit UNSAFE_NS_FLAGS = false := by decide
  have hdecided : chainTruth (readWord (argOf args)) flagged =
      (((args 0).toUInt32.toUInt64 &&& UNSAFE_NS_FLAGS) != 0) := by
    have hzero : needs64bit 0 = false := by decide
    simp only [chainTruth, flagged, Expr.emits, maskedEmits, Expr.decidedTop, Expr.decided,
      maskedDecided, hwide, hzero]
    rfl
  rw [hdecided, hlow, bne, Bool.eq_iff_iff]
  simp

/-- Only these two actions let a call through. -/
theorem permits_iff {action : Action} : Permits action ↔
    actionToRet action = SECCOMP_RET_ALLOW ∨ actionToRet action = SECCOMP_RET_LOG := by
  have hdata (c n : UInt32) : (c ||| n &&& 0xFFFF) &&& 0xFFFF0000 = c &&& 0xFFFF0000 := by
    rw [or_and_distrib, UInt32.and_assoc, show (0xFFFF : UInt32) &&& 0xFFFF0000 = 0 by decide,
      UInt32.and_zero, UInt32.or_zero]
  have hcode {c v : UInt32} (n : UInt32) (h : c &&& 0xFFFF0000 ≠ v &&& 0xFFFF0000) :
      (c ||| n &&& 0xFFFF) ≠ v := fun heq => h (by rw [← hdata c n, heq])
  unfold Permits
  cases action with
  | allow | kill | killProcess | log | userNotif => decide
  | errno n | trap n | trace n =>
    simp only [actionToRet, reduceCtorEq, false_or, false_iff, not_or]
    exact ⟨hcode n (by decide), hcode n (by decide)⟩

/-! ## The guard -/

/-- The namespaces of the sandbox cannot be left by making new ones: no call that would make some
is let through. -/
structure NestedNamespacesDenied (prog : List SockFilter) : Prop where
  clone3 : ∀ d : SeccompData, d.arch = AUDIT_ARCH_X86_64 → d.nr = nrClone3 →
    Bpf.exec prog d.load ≠ some SECCOMP_RET_ALLOW ∧ Bpf.exec prog d.load ≠ some SECCOMP_RET_LOG
  flagged : ∀ d : SeccompData, d.arch = AUDIT_ARCH_X86_64 → d.nr = nrClone ∨ d.nr = nrUnshare →
    d.args 0 &&& UNSAFE_NS_FLAGS ≠ 0 →
    Bpf.exec prog d.load ≠ some SECCOMP_RET_ALLOW ∧ Bpf.exec prog d.load ≠ some SECCOMP_RET_LOG

/-- No rule of the policy lets through a call that the guard is about: none for `clone3` that
decides a call, and for `clone` and `unshare` none that decides one by its filter. -/
structure LeavesToGuard (policy : Policy) : Prop where
  clone3 : ∀ args, ∀ e ∈ deciding (chainTruth (readWord (argOf args))) (policy.entriesFor nrClone3),
    ¬ Permits e.action
  flagged : ∀ nr, nr = nrClone ∨ nr = nrUnshare → ∀ args, args 0 &&& UNSAFE_NS_FLAGS ≠ 0 →
    ∀ e ∈ (policy.entriesFor nr).find? fun e => e.filter.any (chainTruth (readWord (argOf args))),
      ¬ Permits e.action

section Guard

variable {b : Build} {pest : Pest} {prelude : List Char} {fs : FileSystem}
  {source : Option SeccompSource} {policy : Policy} {prog : List SockFilter}

theorem userPolicy_named (h : userPolicy b pest prelude fs source = .ok policy) :
    ∀ e ∈ policy.entries, e.Named := by
  unfold userPolicy at h
  rcases source with _ | policyText | policyPath
  · obtain rfl := Except.ok.inj h
    simp
  · exact parsePolicy_named h
  · rcases hread : fs.readToString policyPath with e | contents <;> simp only [hread] at h
    · cases h
    · exact parsePolicy_named h

theorem guarded_named (h : ∀ e ∈ policy.entries, e.Named) :
    ∀ e ∈ (guarded source policy).entries, e.Named := by
  unfold guarded
  simp only [List.mem_append]
  rintro e ((he | he) | he)
  · exact h e he
  · rcases source with _ | source
    · simp [startupEntries] at he
    · simp only [startupEntries, List.mem_cons, List.not_mem_nil, or_false] at he
      rcases he with rfl | rfl | rfl <;> exact ⟨by decide, by simp⟩
  · simp only [guardEntries, List.mem_cons, List.not_mem_nil, or_false] at he
    rcases he with rfl | rfl | rfl
    · exact ⟨by decide, by simp⟩
    · exact ⟨by decide, by simp [flagged, Expr.argIndices]⟩
    · exact ⟨by decide, by simp [flagged, Expr.argIndices]⟩

theorem not_permitted_iff {entry : Option PolicyEntry} (n : UInt32) :
    (actionToRet ((entry.map (·.action)).getD (.errno n)) ≠ SECCOMP_RET_ALLOW ∧
      actionToRet ((entry.map (·.action)).getD (.errno n)) ≠ SECCOMP_RET_LOG) ↔
      ∀ e ∈ entry, ¬ Permits e.action := by
  rw [← not_or, ← permits_iff]
  rcases entry with _ | e
  · simp [Permits]
  · simp

/-- A call is decided by the user's rules, or by the guard behind them. -/
theorem guarded_iff (hnamed : ∀ e ∈ policy.entries, e.Named)
    (h : (guarded source policy).codegen b = .ok prog)
    (hfit : b = .debug ∨ (guarded source policy).JumpsFit) :
    NestedNamespacesDenied prog ↔ LeavesToGuard policy := by
  have hexec {d : SeccompData} (harch : d.arch = AUDIT_ARCH_X86_64) :=
    exec_of_named (guarded_named hnamed) h hfit harch
  have hclone3 {d : SeccompData} (harch : d.arch = AUDIT_ARCH_X86_64) (hnr : d.nr = nrClone3) :
      Bpf.exec prog d.load = some (actionToRet (((deciding (chainTruth (readWord (argOf d.args)))
        (policy.entriesFor nrClone3)).map (·.action)).getD (.errno ENOSYS))) := by
    rw [hexec harch, hnr, Policy.select, entriesFor_guarded source policy
      (startupEntries_filter source (.inl rfl)) rfl, selectAction_append_of_isNone rfl]
  have hflagged {d : SeccompData} (harch : d.arch = AUDIT_ARCH_X86_64)
      (hnr : d.nr = nrClone ∨ d.nr = nrUnshare) (hflag : d.args 0 &&& UNSAFE_NS_FLAGS ≠ 0) :
      Bpf.exec prog d.load = some (actionToRet ((((policy.entriesFor d.nr).find? fun e =>
        e.filter.any (chainTruth (readWord (argOf d.args)))).map (·.action)).getD
          (.errno EPERM))) := by
    have hguard : guardEntries.filter (·.syscallNumber = d.nr) =
        [⟨d.nr, .errno EPERM, some flagged⟩] := by
      rcases hnr with hnr | hnr <;> rw [hnr] <;> rfl
    have htrue : Option.any (chainTruth (readWord (argOf d.args))) (some flagged) = true := by
      rw [Option.any_some, chainTruth_flagged]
      exact decide_eq_true hflag
    rw [hexec harch, Policy.select, entriesFor_guarded source policy
      (startupEntries_filter source (.inr hnr)) hguard, selectAction_append_of_true htrue]
  constructor
  · intro hdenied
    refine ⟨fun args => ?_, fun nr hnr args hflag => ?_⟩
    · have := hdenied.clone3 ⟨nrClone3, AUDIT_ARCH_X86_64, 0, args⟩ rfl rfl
      rw [hclone3 rfl rfl] at this
      exact (not_permitted_iff ENOSYS).1 (by simpa using this)
    · have := hdenied.flagged ⟨nr, AUDIT_ARCH_X86_64, 0, args⟩ rfl hnr hflag
      rw [hflagged rfl hnr hflag] at this
      exact (not_permitted_iff EPERM).1 (by simpa using this)
  · intro hleaves
    refine ⟨fun d harch hnr => ?_, fun d harch hnr hflag => ?_⟩
    · have := (not_permitted_iff ENOSYS).2 (hleaves.clone3 d.args)
      rw [hclone3 harch hnr]
      simpa using this
    · have := (not_permitted_iff EPERM).2 (hleaves.flagged d.nr hnr d.args hflag)
      rw [hflagged harch hnr hflag]
      simpa using this

/-- The guard holds exactly when the user's policy leaves the calls to it. -/
theorem prepareProgram_guarded_iff {nsConfig : Namespaces}
    (hns : nsConfig.allowNestedUserns = false)
    (h : prepareProgram b pest prelude fs source nsConfig = .ok (some prog)) :
    ∃ policy, userPolicy b pest prelude fs source = .ok policy ∧
      ((b = .debug ∨ (guarded source policy).JumpsFit) →
        (NestedNamespacesDenied prog ↔ LeavesToGuard policy)) := by
  obtain ⟨policy, huser, hcodegen⟩ := prepareProgram_ok hns h
  exact ⟨policy, huser, guarded_iff (userPolicy_named huser) hcodegen⟩

end Guard

/-- A part of the prelude. -/
def preludeExit : List Char := "POLICY allow_exit { ALLOW { exit, exit_group } }".toList

def noFiles : FileSystem := ⟨fun _ => .error "", fun _ => .error ""⟩

def clone3Source : SeccompSource :=
  .inline "POLICY p { ALLOW { clone3 } } USE p DEFAULT KILL".toList

def clone3Program : Option (List SockFilter) :=
  (prepareProgram .debug (Pest.interpreter silentError) preludeExit noFiles (some clone3Source)
    {}).toOption.join

theorem clone3Program_exec : (clone3Program.map fun prog => Bpf.exec prog
    (SeccompData.load ⟨nrClone3, AUDIT_ARCH_X86_64, 0, fun _ => 0⟩)) =
      some (some SECCOMP_RET_ALLOW) := by
  decide +kernel

theorem clone3Program_ok : ∃ prog, clone3Program = some prog ∧
    prepareProgram .debug (Pest.interpreter silentError) preludeExit noFiles (some clone3Source)
      {} = .ok (some prog) := by
  obtain ⟨prog, hprog, -⟩ := Option.map_eq_some_iff.1 clone3Program_exec
  refine ⟨prog, hprog, ?_⟩
  unfold clone3Program at hprog
  rcases h : prepareProgram .debug (Pest.interpreter silentError) preludeExit noFiles
    (some clone3Source) {} with e | p <;> rw [h] at hprog
  · cases hprog
  · exact congrArg Except.ok hprog

/-- A user's rule that allows `clone3` wins over the guard. -/
theorem clone3Program_not_denied : ∃ prog,
    prepareProgram .debug (Pest.interpreter silentError) preludeExit noFiles (some clone3Source)
      {} = .ok (some prog) ∧ ¬ NestedNamespacesDenied prog := by
  obtain ⟨prog, hprog, hok⟩ := clone3Program_ok
  refine ⟨prog, hok, fun hdenied => ?_⟩
  have hexec := clone3Program_exec
  rw [hprog, Option.map_some, Option.some.injEq] at hexec
  exact (hdenied.clone3 _ rfl rfl).1 hexec

theorem clone3Program_guarded_iff : ∃ prog policy, clone3Program = some prog ∧
    userPolicy .debug (Pest.interpreter silentError) preludeExit noFiles (some clone3Source) =
      .ok policy ∧ (NestedNamespacesDenied prog ↔ LeavesToGuard policy) := by
  obtain ⟨prog, hprog, hok⟩ := clone3Program_ok
  obtain ⟨policy, huser, hiff⟩ := prepareProgram_guarded_iff rfl hok
  exact ⟨prog, policy, hprog, huser, hiff (.inl rfl)⟩

end Pnut.Sandbox
