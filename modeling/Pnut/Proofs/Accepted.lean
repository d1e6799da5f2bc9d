import Pnut.Proofs.Faithful
import Pnut.Proofs.Resolved

/-!
# Emitted programs are well formed

Whatever the text, the options and the build: a program that `compile` returns stays inside itself,
reads only words of the data block, is made of the generator's own opcodes, ends in a return, and
kills every call of a foreign architecture.
-/

namespace Pnut.Kafel

open Bpf (SockFilter SeccompData Closed)
open Libc ReverseCodegen

/-- The opcodes the generator names. -/
def opcodes : List UInt16 :=
  [BPF_LD_W_ABS, BPF_JMP_JEQ_K, BPF_JMP_JGT_K, BPF_JMP_JGE_K, BPF_JMP_JSET_K, BPF_ALU_AND_K,
    BPF_JMP_JA, BPF_RET_K]

structure Accepted (prog : List SockFilter) : Prop where
  cond : ∀ pc i, prog[pc]? = some i →
    i.code ∈ [BPF_JMP_JEQ_K, BPF_JMP_JGT_K, BPF_JMP_JGE_K, BPF_JMP_JSET_K] →
    pc + 1 + i.jt.toNat < prog.length ∧ pc + 1 + i.jf.toNat < prog.length
  jump : ∀ pc i, prog[pc]? = some i → i.code = BPF_JMP_JA → pc + 1 + i.k.toNat < prog.length
  load : ∀ i ∈ prog, i.code = BPF_LD_W_ABS → i.k.toNat % 4 = 0 ∧ i.k.toNat < 64
  codes : ∀ i ∈ prog, i.code ∈ opcodes
  ret : ∀ i ∈ prog, i.code = BPF_RET_K →
    i.k ≠ FALSE_EXIT_PLACEHOLDER ∧ i.k ≠ TRUE_EXIT_PLACEHOLDER
  last : ∃ i ∈ prog.getLast?, i.code = BPF_RET_K
  halts : ∀ d : SeccompData, (Bpf.exec prog d.load).isSome = true
  foreign : ∀ d : SeccompData, d.arch ≠ AUDIT_ARCH_X86_64 →
    Bpf.exec prog d.load = some SECCOMP_RET_KILL_PROCESS

theorem or_and_distrib (x y z : UInt32) : (x ||| y) &&& z = x &&& z ||| y &&& z := by
  apply UInt32.toNat_inj.1
  simp only [UInt32.toNat_and, UInt32.toNat_or, Nat.and_or_distrib_right]

/-- The upper half of an action's return value says which action it is. -/
theorem actionToRet_high (action : Action) : actionToRet action &&& 0xFFFF0000 ≠ 0xDEAD0000 := by
  have hdata (n : UInt32) : (n &&& 0xFFFF) &&& 0xFFFF0000 = 0 := by
    rw [UInt32.and_assoc, show (0xFFFF : UInt32) &&& 0xFFFF0000 = 0 by decide, UInt32.and_zero]
  cases action with
  | errno n | trap n | trace n =>
    rw [actionToRet, or_and_distrib, hdata, UInt32.or_zero]
    decide
  | allow | kill | killProcess | log | userNotif => decide

/-- No action returns a placeholder of the conditional chain. -/
theorem actionToRet_ne_placeholder (action : Action) :
    actionToRet action ≠ FALSE_EXIT_PLACEHOLDER ∧ actionToRet action ≠ TRUE_EXIT_PLACEHOLDER := by
  constructor <;> intro h <;> exact actionToRet_high action (h ▸ by decide)

namespace ReverseCodegen

variable {args : List UInt8} {i : SockFilter}

theorem Emitted.load_lt (hargs : ∀ idx ∈ args, idx < 6) (h : Emitted args i)
    (hcode : i.code = Bpf.ldWAbs) : i.k.toNat % 4 = 0 ∧ i.k.toNat < 64 := by
  rcases h with ⟨-, hk | hk | ⟨idx, hidx, high, hk⟩⟩ | h | h | h | ⟨h, -⟩
  · rw [hk]; decide
  · rw [hk]; decide
  · have hlt := hargs idx hidx
    have hword : ∀ idx : Fin 6, ∀ high : Bool,
        (OFFSET_ARGS + (UInt8.ofNat idx).toUInt32 * 8 + if high then 4 else 0).toNat % 4 = 0 ∧
        (OFFSET_ARGS + (UInt8.ofNat idx).toUInt32 * 8 + if high then 4 else 0).toNat < 64 := by
      decide
    have hidx' := hword ⟨idx.toNat, UInt8.lt_iff_toNat_lt.1 hlt⟩ high
    rwa [UInt8.ofNat_toNat, ← hk] at hidx'
  · rw [h] at hcode; exact absurd hcode (by decide)
  · rw [h] at hcode; exact absurd hcode (by decide)
  · rw [hcode] at h; exact absurd h (by decide)
  · rw [h] at hcode; exact absurd hcode (by decide)

theorem Emitted.code_mem (h : Emitted args i) : i.code ∈ opcodes := by
  rcases h with ⟨h, -⟩ | h | h | (h | h | h | h) | ⟨h, -⟩ <;> rw [h] <;> decide

theorem Emitted.ret_ne (h : Emitted args i) (hcode : i.code = Bpf.retK) :
    i.k ≠ FALSE_EXIT_PLACEHOLDER ∧ i.k ≠ TRUE_EXIT_PLACEHOLDER := by
  rcases h with ⟨h, -⟩ | h | h | h | ⟨-, action, hk⟩
  · rw [h] at hcode; exact absurd hcode (by decide)
  · rw [h] at hcode; exact absurd hcode (by decide)
  · rw [h] at hcode; exact absurd hcode (by decide)
  · rw [hcode] at h; exact absurd h (by decide)
  · rw [hk]; exact actionToRet_ne_placeholder action

end ReverseCodegen

variable {b : Build} {prog : List SockFilter}

/-- A policy whose rules are named as resolution names them gives a well-formed program. -/
theorem codegen_accepted {policy : Policy} (hnamed : ∀ e ∈ policy.entries, e.Named)
    (h : policy.codegen b = .ok prog) : Accepted prog := by
  have hmax : ∀ e ∈ policy.entries, e.syscallNumber ≠ MAX_U32 := by
    rintro e he heq
    exact absurd (hnamed e he).number (by rw [heq]; decide)
  have hargs : ∀ idx ∈ policy.argIndices, idx < 6 := by
    intro idx hidx
    obtain ⟨e, he, hidx⟩ := List.mem_flatMap.1 hidx
    cases hf : e.filter with
    | none => simp [hf] at hidx
    | some f => exact (hnamed e he).args f hf idx (by simpa [hf] using hidx)
  obtain ⟨ranges, hranges, hfilled⟩ := normalizeRanges_spec (b := b) hmax
  obtain ⟨hclosed, hemitted, hforeign, -⟩ := ReverseCodegen.generate_spec hranges
    (fun r hr => proper_of_rule (n := r.first)
      (hfilled.laid.rule_eq r hr r.first ⟨le_rfl, hfilled.laid.nonempty r hr⟩).symm)
    hfilled.laid.firsts_lt h
  have hkill : ∀ d : SeccompData, d.arch ≠ AUDIT_ARCH_X86_64 →
      Bpf.exec prog d.load = some SECCOMP_RET_KILL_PROCESS := fun d hd =>
    hforeign d.load (by simpa [OFFSET_ARCH] using hd)
  have hne : prog ≠ [] := by
    rintro rfl
    simpa [Bpf.exec, Bpf.run] using hkill ⟨0, 0, 0, fun _ => 0⟩ (by decide)
  constructor
  case cond =>
    intro pc i hi hcode
    have hlt := (hclosed.within hi).cond_lt (by simpa using hcode)
    omega
  case jump =>
    intro pc i hi hcode
    have hlt := (hclosed.within hi).ja_lt (by simpa using hcode)
    omega
  case load => exact fun i hi hcode => (hemitted i hi).load_lt hargs (by simpa using hcode)
  case codes => exact fun i hi => (hemitted i hi).code_mem
  case ret => exact fun i hi hcode => (hemitted i hi).ret_ne (by simpa using hcode)
  case last =>
    exact ⟨_, List.getLast?_eq_some_getLast hne, by simpa using hclosed.getLast_ret hne⟩
  case halts =>
    intro d
    obtain ⟨v, hv⟩ : ∃ v, Bpf.eval d.load prog 0 0 = some v :=
      hclosed.eval_isSome _ le_rfl hne 0
    rw [Bpf.exec_eq_eval, hv, Option.isSome_some]
  case foreign => exact hkill

/-- What a program compiled from named rules returns. -/
theorem exec_of_named {policy : Policy}
    (hnamed : ∀ e ∈ policy.entries, e.Named) (h : policy.codegen b = .ok prog)
    (hfit : b = .debug ∨ policy.JumpsFit) {d : SeccompData} (harch : d.arch = AUDIT_ARCH_X86_64) :
    Bpf.exec prog d.load =
      some (actionToRet (policy.select (chainTruth (readWord (argOf d.args))) d.nr)) := by
  refine codegen_exec_load (fun e he => (hnamed e he).number) (fun idx hidx => ?_) h hfit harch
  obtain ⟨e, he, hidx⟩ := List.mem_flatMap.1 hidx
  rcases hf : e.filter with _ | f
  · simp [hf] at hidx
  · exact (hnamed e he).args f hf idx (by simpa [hf] using hidx)

variable {pest : Pest} {policyText : List Char}

theorem compileWithOptions_accepted {options : CompileOptions}
    (h : compileWithOptions b pest policyText options = .ok prog) : Accepted prog := by
  simp only [compileWithOptions, bind_eq_ok] at h
  obtain ⟨policy, hparse, hgen⟩ := h
  exact codegen_accepted (parsePolicy_named hparse) hgen

theorem compile_accepted (h : compile b pest policyText = .ok prog) : Accepted prog :=
  compileWithOptions_accepted h

/-- The program of a policy that allows `read`. -/
def readProgram : List SockFilter :=
  [⟨0x20, 0, 0, 4⟩, ⟨0x15, 1, 0, 0xC000003E⟩, ⟨0x06, 0, 0, 0x80000000⟩, ⟨0x20, 0, 0, 0⟩,
    ⟨0x35, 0, 1, 1⟩, ⟨0x06, 0, 0, 0⟩, ⟨0x06, 0, 0, 0x7FFF0000⟩]

theorem readProgram_accepted :
    compile .release (Pest.interpreter silentError)
      "POLICY p { ALLOW { read } } USE p DEFAULT KILL".toList = .ok readProgram ∧
      Accepted readProgram :=
  have h : compile .release (Pest.interpreter silentError)
      "POLICY p { ALLOW { read } } USE p DEFAULT KILL".toList = .ok readProgram := by
    decide +kernel
  ⟨h, compile_accepted h⟩

end Pnut.Kafel
