import Pnut.Proofs.Verdict

/-!
# When a program decides what its policy says

A policy speaks of 64-bit arguments. The code of a comparison reads the low word of its argument
when the constant fits in it, has no form for a wide mask, and is skipped by the chain when it is
empty. So a program is right exactly when its policy selects the same return value under both
readings of its filters.
-/

namespace Pnut.Kafel

open Bpf (SockFilter SeccompData)

/-! ## The arguments as the code reads them -/

section Reading

/-- The arguments of a filter; there are six. -/
def argOf (args : Fin 6 → UInt64) (idx : UInt8) : UInt64 :=
  if h : idx.toNat < 6 then args ⟨idx.toNat, h⟩ else 0

/-- An argument whole, or its low word. -/
def readWord (args : UInt8 → UInt64) (idx : UInt8) (wide : Bool) : UInt64 :=
  if wide then args idx else (args idx).toUInt32.toUInt64

theorem toUInt64_shiftLeft_or (v : UInt64) :
    (v >>> 32).toUInt32.toUInt64 <<< 32 ||| v.toUInt32.toUInt64 = v :=
  (eq_words_iff _ _ v).2 ⟨rfl, rfl⟩

theorem readArg_load (d : SeccompData) {idx : UInt8} (h : idx.toNat < 6) (wide : Bool) :
    readArg d.load idx wide = readWord (argOf d.args) idx wide := by
  have hidx : idx.toUInt32 = UInt32.ofNat (⟨idx.toNat, h⟩ : Fin 6) := by
    apply UInt32.toNat_inj.1
    simp
  have hlo : argWord d.load idx false = (argOf d.args idx).toUInt32 := by
    rw [argWord, argOf, dif_pos h, ← Bpf.load_arg_lo, hidx]
    simp [OFFSET_ARGS]
  have hhi : argWord d.load idx true = (argOf d.args idx >>> 32).toUInt32 := by
    rw [argWord, argOf, dif_pos h, ← Bpf.load_arg_hi, hidx]
    simp [OFFSET_ARGS]
  unfold readArg readWord
  rw [hlo, hhi, toUInt64_shiftLeft_or]

variable {read read' : UInt8 → Bool → UInt64}

theorem comparisonDecided_congr {lhs rhs : Expr} {op : CmpOp}
    (h : ∀ idx ∈ lhs.argIndices ++ rhs.argIndices, read idx = read' idx) :
    comparisonDecided read lhs op rhs = comparisonDecided read' lhs op rhs := by
  unfold comparisonDecided
  split
  · rfl
  · rw [h _ (by simp [Expr.argIndices])]
  · rw [h _ (by simp [Expr.argIndices])]
  · rfl

theorem maskedDecided_congr {idx : UInt8} {mask rhs : Expr} {op : CmpOp}
    (h : read idx = read' idx) :
    maskedDecided read idx mask op rhs = maskedDecided read' idx mask op rhs := by
  unfold maskedDecided
  split
  · rw [h]
  · rfl

theorem decided_congr : ∀ {e : Expr}, (∀ idx ∈ e.argIndices, read idx = read' idx) →
    e.decided read = e.decided read'
  | .boolConst _, _ | .constant _, _ | .arg _, _ | .bitOr _, _ => rfl
  | .compare .., h => comparisonDecided_congr h
  | .maskedCompare idx .., h => maskedDecided_congr (h idx (by simp [Expr.argIndices]))
  | .not inner, h => by rw [Expr.decided, Expr.decided, decided_congr (e := inner) h]
  | .and left right, h | .or left right, h => by
    simp only [Expr.argIndices, List.mem_append] at h
    rw [Expr.decided, Expr.decided, decided_congr fun i hi => h i (.inl hi),
      decided_congr fun i hi => h i (.inr hi)]

theorem decidedTop_congr : ∀ {e : Expr}, (∀ idx ∈ e.argIndices, read idx = read' idx) →
    e.decidedTop read = e.decidedTop read'
  | .boolConst _, _ | .constant _, _ | .arg _, _ | .bitOr _, _ => rfl
  | .compare .., h => comparisonDecided_congr h
  | .maskedCompare idx .., h => maskedDecided_congr (h idx (by simp [Expr.argIndices]))
  | .not inner, h => by rw [Expr.decidedTop, Expr.decidedTop, decidedTop_congr (e := inner) h]
  | .and left right, h | .or left right, h => by
    simp only [Expr.argIndices, List.mem_append] at h
    rw [Expr.decidedTop, Expr.decidedTop, decidedTop_congr fun i hi => h i (.inl hi),
      decidedTop_congr (e := right) fun i hi => h i (.inr hi),
      decided_congr (e := right) fun i hi => h i (.inr hi)]

end Reading

/-! ## Selection -/

theorem find?_congr {α : Type} {p q : α → Bool} : ∀ {l : List α}, (∀ a ∈ l, p a = q a) →
    l.find? p = l.find? q
  | [], _ => rfl
  | a :: l, h => by
    rw [List.find?_cons, List.find?_cons, h a (by simp), find?_congr fun b hb => h b (by simp [hb])]

section Select

variable {policy : Policy}

/-- The selection looks at the filters of the policy only. -/
theorem select_congr {truth truth' : Expr → Bool} (nr : UInt32)
    (h : ∀ e ∈ policy.entries, ∀ expr ∈ e.filter, truth expr = truth' expr) :
    policy.select truth nr = policy.select truth' nr := by
  unfold Policy.select selectAction
  rw [find?_congr fun e he => ?_]
  have := h e (List.mem_of_mem_filter he)
  cases hf : e.filter with
  | none => rfl
  | some expr => simpa [hf] using this expr

/-- Numbers above all entries are selected alike. -/
theorem select_min_topNumber {truth : Expr → Bool} (nr : UInt32)
    (h : ∀ e ∈ policy.entries, e.syscallNumber ≤ 1022) :
    policy.select truth (min nr policy.topNumber) = policy.select truth nr := by
  have htop : policy.topNumber = MAX_SYSCALL_NR :=
    le_antisymm (topNumber_le le_rfl fun e he => (h e he).trans (by decide)) le_topNumber.1
  have hnil {n : UInt32} (hn : 1022 < n) : policy.entriesFor n = [] := by
    rw [Policy.entriesFor, List.filter_eq_nil_iff]
    simp only [decide_eq_true_eq]
    rintro e he rfl
    exact (hn.trans_le (h e he)).false
  rw [htop]
  by_cases hnr : nr ≤ MAX_SYSCALL_NR
  · rw [min_eq_left hnr]
  · rw [not_le] at hnr
    rw [min_eq_right hnr.le, Policy.select, Policy.select, hnil (by decide),
      hnil ((by decide : (1022 : UInt32) < MAX_SYSCALL_NR).trans hnr)]

theorem chainTruth_load {d : SeccompData} {nr : UInt32}
    (h : ∀ idx ∈ policy.argIndices, idx < 6) :
    policy.select (chainTruth (readArg d.load)) nr =
      policy.select (chainTruth (readWord (argOf d.args))) nr := by
  refine select_congr nr fun e he expr hexpr => ?_
  have hread : ∀ idx ∈ expr.argIndices, readArg d.load idx = readWord (argOf d.args) idx :=
    fun idx hidx => funext fun wide => readArg_load d (by
      have := h idx (List.mem_flatMap.2 ⟨e, he, by simpa [Option.mem_def.1 hexpr] using hidx⟩)
      simpa [UInt8.lt_iff_toNat_lt] using this) wide
  unfold chainTruth
  rw [decidedTop_congr hread]

end Select

/-! ## The program and the policy -/

/-- The verdict that the policy asks for. -/
def Policy.verdict (policy : Policy) (d : SeccompData) : UInt32 :=
  actionToRet (policy.select (Expr.holds (argOf d.args)) d.nr)

/-- The program returns what the policy asks for. -/
def Policy.DecidedBy (policy : Policy) (prog : List SockFilter) : Prop :=
  ∀ d : SeccompData, d.arch = AUDIT_ARCH_X86_64 →
    Bpf.exec prog d.load = some (policy.verdict d)

/-- The policy selects the same return value whether its filters are read over whole arguments or
as their code reads them. -/
def Policy.ReadAlike (policy : Policy) : Prop :=
  ∀ (args : Fin 6 → UInt64) (nr : UInt32),
    actionToRet (policy.select (chainTruth (readWord (argOf args))) nr) =
      actionToRet (policy.select (Expr.holds (argOf args)) nr)

/-- What a program returns: what its policy selects when filters are read as their code reads
them. A build without checks has to be free of the drift that stops the checked one. -/
theorem codegen_exec_load {b : Build} {policy : Policy} {prog : List SockFilter}
    (hnr : ∀ e ∈ policy.entries, e.syscallNumber ≤ 1022)
    (hargs : ∀ idx ∈ policy.argIndices, idx < 6) (h : policy.codegen b = .ok prog)
    (hfit : b = .debug ∨ policy.JumpsFit) {d : SeccompData} (harch : d.arch = AUDIT_ARCH_X86_64) :
    Bpf.exec prog d.load =
      some (actionToRet (policy.select (chainTruth (readWord (argOf d.args))) d.nr)) := by
  have hmax : ∀ e ∈ policy.entries, e.syscallNumber ≠ MAX_U32 := fun e he hm => by
    have := hnr e he
    rw [hm] at this
    exact absurd this (by decide)
  have hfit : policy.JumpsFit := hfit.elim (fun hb => .of_ok (hb ▸ h)) id
  have hnr₀ : d.load OFFSET_NR = d.nr := Bpf.load_nr d
  have := codegen_exec hmax hfit h ((Bpf.load_arch d).trans harch)
  rw [this, select_min_topNumber _ hnr, chainTruth_load hargs, hnr₀]

/-- A program is right exactly when the code of its filters reads them as the policy does. -/
theorem codegen_decidedBy_iff {b : Build} {policy : Policy} {prog : List SockFilter}
    (hnr : ∀ e ∈ policy.entries, e.syscallNumber ≤ 1022)
    (hargs : ∀ idx ∈ policy.argIndices, idx < 6) (h : policy.codegen b = .ok prog)
    (hfit : b = .debug ∨ policy.JumpsFit) : policy.DecidedBy prog ↔ policy.ReadAlike := by
  have hexec {d : SeccompData} (harch : d.arch = AUDIT_ARCH_X86_64) :=
    codegen_exec_load hnr hargs h hfit harch
  constructor
  · intro hright args nr
    let d : SeccompData := ⟨nr, AUDIT_ARCH_X86_64, 0, args⟩
    have := (hexec (d := d) rfl).symm.trans (hright d rfl)
    exact Option.some.inj this
  · intro halike d harch
    rw [hexec harch, halike]
    rfl

/-- An argument is compared with a small constant. -/
def wordPolicy : Policy :=
  ⟨[⟨0, .allow, some (.compare (.arg 0) .eq (.constant 1))⟩], .killProcess⟩

def wordProgram : List SockFilter := (wordPolicy.codegen .release).toOption.getD []

/-- The program allows an argument whose low word alone is the constant. -/
theorem wordProgram_not_decidedBy :
    (∀ e ∈ wordPolicy.entries, e.syscallNumber ≤ 1022) ∧ (∀ idx ∈ wordPolicy.argIndices, idx < 6) ∧
      wordPolicy.codegen .release = .ok wordProgram ∧ ¬ wordPolicy.DecidedBy wordProgram := by
  refine ⟨by decide, by decide +kernel, rfl, fun h => ?_⟩
  have := h ⟨0, AUDIT_ARCH_X86_64, 0, fun _ => 0x100000001⟩ rfl
  revert this
  decide

theorem wordProgram_decidedBy_iff : wordPolicy.DecidedBy wordProgram ↔ wordPolicy.ReadAlike :=
  codegen_decidedBy_iff (by decide) (by decide +kernel)
    (by rfl : wordPolicy.codegen .debug = .ok wordProgram) (.inl rfl)

end Pnut.Kafel
