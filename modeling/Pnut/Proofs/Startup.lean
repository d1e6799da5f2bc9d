import Pnut.Proofs.Guard

/-!
# The calls that start the command

The filter is installed before `execve` and `chdir`, and rules that allow them come after the
user's. An earlier rule for the same number wins: they are allowed exactly when the user's policy
decides none of them otherwise.
-/

namespace Pnut.Sandbox

open Kafel Kafel.Libc
open Bpf (SockFilter SeccompData)

def nrExecve : UInt32 := 59
def nrExecveat : UInt32 := 322
def nrChdir : UInt32 := 80

/-- The rule that is added for a call the sandbox itself makes. -/
def allowEntry (nr : UInt32) : PolicyEntry := ⟨nr, .allow, none⟩

def startupNumbers : List UInt32 := [nrExecve, nrExecveat, nrChdir]

/-- The user's policy with the rules of `compile_policy` behind it. -/
def compiled (blockNestedUserns : Bool) (policy : Policy) : Policy :=
  { policy with
    entries := policy.entries ++ startupNumbers.map allowEntry ++
      if blockNestedUserns then guardEntries else [] }

/-- `execve`, `execveat` and `chdir` are let through whatever their arguments. -/
def StartupAllowed (prog : List SockFilter) : Prop :=
  ∀ d : SeccompData, d.arch = AUDIT_ARCH_X86_64 → d.nr ∈ startupNumbers →
    Bpf.exec prog d.load = some SECCOMP_RET_ALLOW

/-- Where the policy's own rules decide one of these calls, they allow it. -/
def AllowsStartup (policy : Policy) : Prop :=
  ∀ nr ∈ startupNumbers, ∀ args,
    ∀ e ∈ deciding (chainTruth (readWord (argOf args))) (policy.entriesFor nr), e.action = .allow

section Compile

variable {b : Build} {pest : Pest} {prelude : List Char} {fs : FileSystem}
  {policyText : List Char} {baseDir filename : Option String} {block : Bool} {policy : Policy}
  {prog : List SockFilter}

theorem compilePolicy_compiled
    (h : compilePolicy b pest prelude fs policyText baseDir filename block = .ok (some prog)) :
    ∃ policy, parsePolicy b pest policyText
        { prelude := some prelude, includeResolver := baseDir.map fs.resolve } = .ok policy ∧
      (compiled block policy).codegen b = .ok prog := by
  unfold compilePolicy at h
  simp only [bind_eq_ok, mapErr_eq_ok] at h
  obtain ⟨policy, hparse, policy₁, hstartup, policy₂, hguard, program, hcodegen, heq⟩ := h
  rw [allowStartup_eq policy (.inline [])] at hstartup
  obtain rfl := Except.ok.inj hstartup
  obtain rfl : program = prog := by simpa [pure, Except.pure] using heq
  refine ⟨policy, hparse, ?_⟩
  have hpolicy : compiled block policy = policy₂ := by
    rcases block with _ | _
    · rw [if_neg Bool.false_ne_true] at hguard
      obtain rfl := Except.ok.inj hguard
      unfold compiled
      rw [if_neg Bool.false_ne_true, List.append_nil]
      rfl
    · rw [if_pos rfl, injectUsernsDeny_eq] at hguard
      obtain rfl := Except.ok.inj hguard
      rfl
  rw [hpolicy]
  exact hcodegen

theorem compiled_named (h : ∀ e ∈ policy.entries, e.Named) :
    ∀ e ∈ (compiled block policy).entries, e.Named := by
  intro e he
  have hguarded : e ∈ (guarded (some (.inline [])) policy).entries → e.Named := guarded_named h e
  rcases List.mem_append.1 he with he | he
  · exact hguarded (List.mem_append_left _ he)
  · rcases block with _ | _
    · cases he
    · exact hguarded (List.mem_append_right _ he)

/-- The rule of the sandbox comes after the user's, and none of the guard's is about the call. -/
theorem entriesFor_compiled {nr : UInt32} (hnr : nr ∈ startupNumbers) :
    (compiled block policy).entriesFor nr = policy.entriesFor nr ++ [allowEntry nr] := by
  have hstartup : (startupNumbers.map allowEntry).filter (·.syscallNumber = nr) =
      [allowEntry nr] := by
    simp only [startupNumbers, List.mem_cons, List.not_mem_nil, or_false] at hnr
    rcases hnr with rfl | rfl | rfl <;> rfl
  have hguard : (if block then guardEntries else []).filter (·.syscallNumber = nr) = [] := by
    simp only [startupNumbers, List.mem_cons, List.not_mem_nil, or_false] at hnr
    rcases block with _ | _
    · rfl
    · rcases hnr with rfl | rfl | rfl <;> rfl
  unfold Policy.entriesFor compiled
  rw [List.filter_append, List.filter_append, hstartup, hguard, List.append_nil]

theorem actionToRet_eq_allow {action : Action} :
    actionToRet action = SECCOMP_RET_ALLOW ↔ action = .allow := by
  constructor
  · intro h
    rcases permits_iff.2 (.inl h) with rfl | rfl
    · rfl
    · exact absurd h (by decide)
  · rintro rfl
    rfl

/-- A call is decided by the user's rules, or allowed by the rule behind them. -/
theorem compiled_startup_iff (hnamed : ∀ e ∈ policy.entries, e.Named)
    (h : (compiled block policy).codegen b = .ok prog)
    (hfit : b = .debug ∨ (compiled block policy).JumpsFit) :
    StartupAllowed prog ↔ AllowsStartup policy := by
  have hexec (nr : UInt32) (hnr : nr ∈ startupNumbers) (ip : UInt64) (args : Fin 6 → UInt64) :
      Bpf.exec prog (SeccompData.load ⟨nr, AUDIT_ARCH_X86_64, ip, args⟩) = some SECCOMP_RET_ALLOW ↔
        ∀ e ∈ deciding (chainTruth (readWord (argOf args))) (policy.entriesFor nr),
          e.action = .allow := by
    rw [exec_of_named (compiled_named hnamed) h hfit rfl, Policy.select, entriesFor_compiled hnr,
      selectAction_append_of_isNone rfl, Option.some.injEq, actionToRet_eq_allow]
    rcases deciding (chainTruth (readWord (argOf args))) (policy.entriesFor nr) with _ | e
    · simp [allowEntry]
    · simp
  constructor
  · intro hallowed nr hnr args
    exact (hexec nr hnr 0 args).1 (hallowed ⟨nr, AUDIT_ARCH_X86_64, 0, args⟩ rfl hnr)
  · rintro hallows ⟨nr, arch, ip, args⟩ harch hnr
    obtain rfl : arch = AUDIT_ARCH_X86_64 := harch
    exact (hexec nr hnr ip args).2 (hallows nr hnr args)

/-- The calls are let through exactly when the user's policy does not decide them otherwise. -/
theorem compilePolicy_startup_iff
    (h : compilePolicy b pest prelude fs policyText baseDir filename block = .ok (some prog)) :
    ∃ policy, parsePolicy b pest policyText
        { prelude := some prelude, includeResolver := baseDir.map fs.resolve } = .ok policy ∧
      ((b = .debug ∨ (compiled block policy).JumpsFit) →
        (StartupAllowed prog ↔ AllowsStartup policy)) := by
  obtain ⟨policy, hparse, hcodegen⟩ := compilePolicy_compiled h
  exact ⟨policy, hparse, compiled_startup_iff (parsePolicy_named hparse) hcodegen⟩

end Compile

def execveText : List Char := "POLICY p { ERRNO(1) { execve } } USE p DEFAULT ALLOW".toList

def execveProgram : Option (List SockFilter) :=
  (compilePolicy .debug (Pest.interpreter silentError) preludeExit noFiles execveText none none
    true).toOption.join

theorem execveProgram_exec : (execveProgram.map fun prog => Bpf.exec prog
    (SeccompData.load ⟨nrExecve, AUDIT_ARCH_X86_64, 0, fun _ => 0⟩)) =
      some (some (actionToRet (.errno 1))) := by
  decide +kernel

theorem execveProgram_ok : ∃ prog, execveProgram = some prog ∧
    compilePolicy .debug (Pest.interpreter silentError) preludeExit noFiles execveText none none
      true = .ok (some prog) := by
  obtain ⟨prog, hprog, -⟩ := Option.map_eq_some_iff.1 execveProgram_exec
  refine ⟨prog, hprog, ?_⟩
  unfold execveProgram at hprog
  rcases h : compilePolicy .debug (Pest.interpreter silentError) preludeExit noFiles execveText none
    none true with e | p <;> rw [h] at hprog
  · cases hprog
  · exact congrArg Except.ok hprog

/-- A policy that is accepted, and whose program keeps the sandbox from starting its command. -/
theorem execveProgram_not_allowed : ∃ prog,
    compilePolicy .debug (Pest.interpreter silentError) preludeExit noFiles execveText none none
      true = .ok (some prog) ∧ ¬ StartupAllowed prog := by
  obtain ⟨prog, hprog, hok⟩ := execveProgram_ok
  refine ⟨prog, hok, fun hallowed => ?_⟩
  have hexec := execveProgram_exec
  rw [hprog, Option.map_some, Option.some.injEq] at hexec
  have hallow := hallowed ⟨nrExecve, AUDIT_ARCH_X86_64, 0, fun _ => 0⟩ rfl (List.mem_cons_self ..)
  have := hexec.symm.trans hallow
  revert this
  decide

theorem execveProgram_startup_iff : ∃ prog policy, execveProgram = some prog ∧
    parsePolicy .debug (Pest.interpreter silentError) execveText { prelude := some preludeExit } =
      .ok policy ∧ (StartupAllowed prog ↔ AllowsStartup policy) := by
  obtain ⟨prog, hprog, hok⟩ := execveProgram_ok
  obtain ⟨policy, hparse, hiff⟩ := compilePolicy_startup_iff hok
  exact ⟨prog, policy, hprog, hparse, hiff (.inl rfl)⟩

end Pnut.Sandbox
