import Pnut.Proofs.Verdict

/-!
# Rules for one number leave the others alone

Two policies that agree on a number's entries decide it alike, with one exception: the ranges end
at `MAX_SYSCALL_NR` or at the largest number with an entry, and whatever lies above is decided by
the last range. An entry for the largest number of all overflows, and so may a comparison's false
displacement; the checked build panics there and the other one wraps.
-/

namespace Pnut.Kafel

open Bpf (SockFilter SeccompData)

section Isolation

variable {b : Build} {policy policy' : Policy} {n : UInt32}

/-- The number has no entry, so the default action is for it. -/
def Policy.DefaultsAt (b : Build) (policy : Policy) (n : UInt32) : Prop :=
  ∀ prog, policy.codegen b = .ok prog → policy.entriesFor n = [] →
    ∀ d : SeccompData, d.arch = AUDIT_ARCH_X86_64 → d.nr = n →
      Bpf.exec prog d.load = some (actionToRet policy.defaultAction)

/-- Neither policy makes the generator panic or wrap, and the rules for the other numbers have no
say in the verdict on `n`. -/
structure Isolated (b : Build) (policy policy' : Policy) (n : UInt32) : Prop where
  safe : ¬ Panics (policy.codegen .debug)
  safe' : ¬ Panics (policy'.codegen .debug)
  same : ∀ prog prog', policy.codegen b = .ok prog → policy'.codegen b = .ok prog' →
    policy.entriesFor n = policy'.entriesFor n →
    ∀ d : SeccompData, d.nr = n → Bpf.exec prog d.load = Bpf.exec prog' d.load
  default : policy.DefaultsAt b n
  default' : policy'.DefaultsAt b n

/-- The condition on one policy: a number above its ranges is decided by the default action, as the
last range has no other verdict for it. -/
structure Policy.Contains (b : Build) (policy : Policy) (n : UInt32) : Prop where
  ne_max : ∀ e ∈ policy.entries, e.syscallNumber ≠ MAX_U32
  jumpsFit : policy.JumpsFit
  last : ∀ prog, policy.codegen b = .ok prog → policy.topNumber < n →
    ∀ d : SeccompData, d.arch = AUDIT_ARCH_X86_64 → d.nr = n →
      actionToRet (policy.select (chainTruth (readArg d.load)) policy.topNumber) =
        actionToRet policy.defaultAction

theorem entriesFor_of_topNumber_lt (h : policy.topNumber < n) : policy.entriesFor n = [] := by
  by_contra hne
  obtain ⟨e, he, rfl⟩ := entriesFor_ne_nil.1 hne
  exact (h.trans_le (le_topNumber.2 e he)).false

theorem select_of_entriesFor {truth : Expr → Bool} (h : policy.entriesFor n = []) :
    policy.select truth n = policy.defaultAction := by
  rw [Policy.select, h]
  rfl

theorem not_panics_iff : ¬ Panics (policy.codegen .debug) ↔
    (∀ e ∈ policy.entries, e.syscallNumber ≠ MAX_U32) ∧ policy.JumpsFit := by
  rw [codegen_panics_iff, not_or, not_not]
  simp

/-- Under the condition a number is decided by its own entries. -/
theorem Policy.Contains.exec {prog : List SockFilter} (h : policy.Contains b n)
    (hprog : policy.codegen b = .ok prog) {d : SeccompData} (harch : d.arch = AUDIT_ARCH_X86_64)
    (hnr : d.nr = n) : Bpf.exec prog d.load =
      some (actionToRet (policy.select (chainTruth (readArg d.load)) n)) := by
  have hload : d.load OFFSET_NR = n := (Bpf.load_nr d).trans hnr
  rw [codegen_exec h.ne_max h.jumpsFit hprog ((Bpf.load_arch d).trans harch), hload]
  by_cases htop : policy.topNumber < n
  · rw [min_eq_right htop.le, h.last prog hprog htop d harch hnr,
      select_of_entriesFor (entriesFor_of_topNumber_lt htop)]
  · rw [min_eq_left (not_lt.1 htop)]

theorem exec_foreign {prog : List SockFilter}
    (hmax : ∀ e ∈ policy.entries, e.syscallNumber ≠ MAX_U32) (hprog : policy.codegen b = .ok prog)
    {d : SeccompData} (harch : d.arch ≠ AUDIT_ARCH_X86_64) :
    Bpf.exec prog d.load = some (actionToRet .killProcess) := by
  obtain ⟨ranges, hranges, hfilled⟩ := normalizeRanges_spec hmax
  have hproper : ∀ r ∈ ranges, r.Proper policy.argIndices := fun r hr =>
    proper_of_rule (hfilled.laid.rule_eq r hr r.first ⟨le_rfl, hfilled.laid.nonempty r hr⟩).symm
  exact (ReverseCodegen.generate_spec hranges hproper hfilled.laid.firsts_lt hprog).2.2.1 d.load
    fun h => harch ((Bpf.load_arch d).symm.trans h)

theorem Policy.Contains.defaultsAt (h : policy.Contains b n) : policy.DefaultsAt b n :=
  fun prog hprog hnil d harch hnr => by rw [h.exec hprog harch hnr, select_of_entriesFor hnil]

theorem Policy.DefaultsAt.contains (h : policy.DefaultsAt b n)
    (hsafe : ¬ Panics (policy.codegen .debug)) : policy.Contains b n where
  ne_max := (not_panics_iff.1 hsafe).1
  jumpsFit := (not_panics_iff.1 hsafe).2
  last prog hprog htop d harch hnr := by
    obtain ⟨hmax, hfit⟩ := not_panics_iff.1 hsafe
    have hload : d.load OFFSET_NR = n := (Bpf.load_nr d).trans hnr
    have hexec := codegen_exec hmax hfit hprog ((Bpf.load_arch d).trans harch)
    rw [hload, min_eq_right htop.le,
      h prog hprog (entriesFor_of_topNumber_lt htop) d harch hnr] at hexec
    exact (Option.some.inj hexec).symm

/-- Isolation is the condition on both policies. -/
theorem isolated_iff (hdefault : policy.defaultAction = policy'.defaultAction) :
    Isolated b policy policy' n ↔ policy.Contains b n ∧ policy'.Contains b n := by
  constructor
  · intro h
    exact ⟨h.default.contains h.safe, h.default'.contains h.safe'⟩
  · rintro ⟨h, h'⟩
    refine ⟨not_panics_iff.2 ⟨h.ne_max, h.jumpsFit⟩, not_panics_iff.2 ⟨h'.ne_max, h'.jumpsFit⟩, ?_,
      h.defaultsAt, h'.defaultsAt⟩
    intro prog prog' hprog hprog' hentries d hnr
    by_cases harch : d.arch = AUDIT_ARCH_X86_64
    · rw [h.exec hprog harch hnr, h'.exec hprog' harch hnr, Policy.select, Policy.select, hentries,
        hdefault]
    · rw [exec_foreign h.ne_max hprog harch, exec_foreign h'.ne_max hprog' harch]

end Isolation

/-- An entry for the last number that is filled up to. -/
def lastPolicy : Policy := ⟨[⟨0x3FF, .allow, none⟩], .killProcess⟩

def lastProgram : List SockFilter := (lastPolicy.codegen .release).toOption.getD []

/-- Its action is that of every larger number too. -/
theorem lastPolicy_not_isolated : ¬ Isolated .release lastPolicy ⟨[], .killProcess⟩ 0x400 := by
  intro h
  have := h.default lastProgram rfl rfl ⟨0x400, AUDIT_ARCH_X86_64, 0, fun _ => 0⟩ rfl rfl
  revert this
  decide

theorem lastPolicy_isolated_iff : Isolated .release lastPolicy ⟨[], .killProcess⟩ 0x400 ↔
    lastPolicy.Contains .release 0x400 ∧
      Policy.Contains .release ⟨[], .killProcess⟩ 0x400 := isolated_iff rfl

end Pnut.Kafel
