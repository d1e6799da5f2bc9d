import Pnut.Kafel.Interp
import Pnut.Proofs.Accepted

/-!
# The interpreter against the kernel's machine

On every program the interpreter is the kernel's machine on another data block: one without the
instruction pointer, and without the arguments 4 and 5, whose words lie past the offsets
`load_u32` decodes. So it returns the kernel's verdict exactly when that does not depend on them.
-/

namespace Pnut.Kafel

open Bpf (SockFilter SeccompData)

namespace Interp

/-- The block as the interpreter is given it. -/
def ofBlock (d : Bpf.SeccompData) : SeccompData := ⟨d.nr, d.arch, d.args⟩

/-- The arguments that the interpreter decodes, and zero for the others. -/
def blindArgs (args : Fin 6 → UInt64) : Fin 6 → UInt64 := fun i => if i < 4 then args i else 0

/-- The block as the interpreter reads it. -/
def blind (d : Bpf.SeccompData) : Bpf.SeccompData := ⟨d.nr, d.arch, 0, blindArgs d.args⟩

/-- The interpreter returns what the kernel's machine returns, and panics where that faults. -/
def Agrees (prog : List SockFilter) (d : Bpf.SeccompData) : Prop :=
  (run prog (ofBlock d)).toOption = Bpf.exec prog d.load

/-! ## One machine, two data blocks -/

/-- A conditional jump, from where the interpreter takes it and from where the machine does. -/
theorem step_of_condition {d : SeccompData} {i : SockFilter} {pc : ℕ} {a : UInt32} {c : Bool}
    (hstep : step d i pc a = .ok (.go (pc + (1 + if c then i.jt.toNat else i.jf.toNat)) a))
    (hcond : Bpf.condition i.code a i.k = some c) :
    (step d i pc a).toOption = match i.act d.loadU32 a with
      | .go skip a' => some (.go (pc + 1 + skip) a')
      | .ret v => some (.ret v)
      | .fault => none := by
  rw [hstep, Bpf.act_of_condition _ _ hcond, ← Nat.add_assoc]
  rfl

theorem step_eq_act (d : SeccompData) (i : SockFilter) (pc : ℕ) (a : UInt32) :
    (step d i pc a).toOption = match i.act d.loadU32 a with
      | .go skip a' => some (.go (pc + 1 + skip) a')
      | .ret v => some (.ret v)
      | .fault => none := by
  rcases i with ⟨code, jt, jf, k⟩
  by_cases hld : code = BPF_LD_W_ABS
  · subst hld; rfl
  by_cases hand : code = BPF_ALU_AND_K
  · subst hand; rfl
  by_cases hjeq : code = BPF_JMP_JEQ_K
  · subst hjeq
    exact step_of_condition (c := a = k) rfl rfl
  by_cases hjgt : code = BPF_JMP_JGT_K
  · subst hjgt
    exact step_of_condition (c := k < a) rfl rfl
  by_cases hjge : code = BPF_JMP_JGE_K
  · subst hjge
    exact step_of_condition (c := k ≤ a) rfl rfl
  by_cases hjset : code = BPF_JMP_JSET_K
  · subst hjset
    refine step_of_condition (c := a &&& k ≠ 0) rfl ?_
    show some (a &&& k != 0) = some (decide (a &&& k ≠ 0))
    rw [Option.some.injEq, Bool.eq_iff_iff]
    simp
  by_cases hja : code = BPF_JMP_JA
  · subst hja
    show some (Next.go (pc + (1 + k.toNat)) a) = some (.go (pc + 1 + k.toNat) a)
    rw [Nat.add_assoc]
  by_cases hret : code = BPF_RET_K
  · subst hret; rfl
  have hcond : Bpf.condition code a k = none := by
    exact (if_neg hjeq).trans ((if_neg hjgt).trans ((if_neg hjge).trans (if_neg hjset)))
  have hact : (SockFilter.mk code jt jf k).act d.loadU32 a = .fault := by
    unfold SockFilter.act
    rw [hcond]
    exact (if_neg hld).trans ((if_neg hand).trans ((if_neg hja).trans (if_neg hret)))
  rw [hact]
  unfold step
  dsimp only
  rw [if_neg hld, if_neg hand, if_neg hjeq, if_neg hjgt, if_neg hjge, if_neg hjset, if_neg hja,
    if_neg hret]
  rfl

/-- The loop is the machine, which is given as many steps as there are instructions left. -/
theorem runFrom_eq_run (insns : List SockFilter) (d : SeccompData) : ∀ (n pc : ℕ) (a : UInt32),
    pc < insns.length → insns.length ≤ pc + n →
    (runFrom insns d pc a).toOption = Bpf.run insns d.loadU32 n pc a
  | 0, pc, a, hlt, hn => by omega
  | n + 1, pc, a, hlt, hn => by
    have hstep := step_eq_act d insns[pc] pc a
    rw [runFrom, Bpf.run]
    simp only [List.getElem?_eq_getElem hlt]
    split
    · next e he =>
      rw [he] at hstep
      cases hact : insns[pc].act d.loadU32 a <;> rw [hact] at hstep
      · cases hstep
      · cases hstep
      · rfl
    · next v hv =>
      rw [hv] at hstep
      cases hact : insns[pc].act d.loadU32 a <;> rw [hact] at hstep <;> cases hstep
      rfl
    · next pc' a' hgo =>
      rw [hgo] at hstep
      cases hact : insns[pc].act d.loadU32 a with
      | ret v => rw [hact] at hstep; cases hstep
      | fault => rw [hact] at hstep; cases hstep
      | go skip a'' =>
        rw [hact] at hstep
        cases hstep
        dsimp only
        split_ifs with hend
        · rcases n with _ | n
          · rfl
          · unfold Bpf.run
            rw [List.getElem?_eq_none hend]
            rfl
        · exact runFrom_eq_run insns d n (pc + 1 + skip) a' (by omega) (by omega)

theorem run_eq_exec (prog : List SockFilter) (d : SeccompData) :
    (run prog d).toOption = Bpf.exec prog d.loadU32 := by
  rcases prog with _ | ⟨i, is⟩
  · unfold run
    rw [runFrom]
    rfl
  · exact runFrom_eq_run (i :: is) d _ 0 0 (Nat.succ_pos _) (Nat.le_add_left ..)

/-! ## What the interpreter reads -/

theorem and_mask (w : UInt32) : w &&& 0xFFFFFFFF = w := by
  apply UInt32.toNat_inj.1
  rw [UInt32.toNat_and, show (0xFFFFFFFF : UInt32).toNat = 2 ^ 32 - 1 by decide,
    Nat.and_two_pow_sub_one_eq_mod, Nat.mod_eq_of_lt w.toNat_lt]

section Load

variable (d : Bpf.SeccompData)

theorem loadU32_lo (i : Fin 6) : (ofBlock d).loadU32 (16 + UInt32.ofNat i * 8) =
    (blindArgs d.args i).toUInt32 := by
  fin_cases i <;> simp [SeccompData.loadU32, ofBlock, blindArgs, and_mask]

theorem loadU32_hi (i : Fin 6) : (ofBlock d).loadU32 (16 + UInt32.ofNat i * 8 + 4) =
    (blindArgs d.args i >>> 32).toUInt32 := by
  fin_cases i <;> simp [SeccompData.loadU32, ofBlock, blindArgs]

/-- The words of the instruction pointer, which the interpreter's block does not have. -/
theorem load_ip : (blind d).load 8 = 0 ∧ (blind d).load 12 = 0 := by
  simp [blind, Bpf.SeccompData.load, Bpf.SeccompData.bytes, Bpf.leBytes, List.range_succ]

/-- At every word of the block the interpreter reads what the blind block holds. -/
theorem loadU32_ofBlock {k : UInt32} (hmod : k.toNat % 4 = 0) (hlt : k.toNat < 64) :
    (ofBlock d).loadU32 k = (blind d).load k := by
  have hk : k = UInt32.ofNat k.toNat := UInt32.ofNat_toNat.symm
  by_cases hargs : 16 ≤ k.toNat
  · let i : Fin 6 := ⟨(k.toNat - 16) / 8, by omega⟩
    have hsum (w : ℕ) (hw : k.toNat = 16 + (k.toNat - 16) / 8 * 8 + w) :
        k = 16 + UInt32.ofNat i * 8 + UInt32.ofNat w := by
      rw [hk, hw]
      simp [i]
    by_cases hlo : (k.toNat - 16) % 8 = 0
    · have := hsum 0 (by omega)
      rw [show UInt32.ofNat 0 = 0 from rfl, UInt32.add_zero] at this
      rw [this, loadU32_lo, Bpf.load_arg_lo]
      rfl
    · have := hsum 4 (by omega)
      rw [show UInt32.ofNat 4 = 4 from rfl] at this
      rw [this, loadU32_hi, Bpf.load_arg_hi]
      rfl
  · obtain h | h | h | h : k.toNat = 0 ∨ k.toNat = 4 ∨ k.toNat = 8 ∨ k.toNat = 12 := by omega
    · rw [hk, h]
      exact (Bpf.load_nr (blind d)).symm
    · rw [hk, h]
      exact (Bpf.load_arch (blind d)).symm
    · rw [hk, h]
      exact (load_ip d).1.symm
    · rw [hk, h]
      exact (load_ip d).2.symm

end Load

/-! ## When they agree -/

section Agrees

variable {prog : List SockFilter} {d : Bpf.SeccompData}

/-- The machine asks a data block only for the words its program loads. -/
theorem run_congr {load load' : UInt32 → UInt32}
    (h : ∀ i ∈ prog, i.code = Bpf.ldWAbs → load i.k = load' i.k) :
    ∀ (n pc : ℕ) (a : UInt32), Bpf.run prog load n pc a = Bpf.run prog load' n pc a
  | 0, _, _ => rfl
  | n + 1, pc, a => by
    unfold Bpf.run
    cases hi : prog[pc]? with
    | none => rfl
    | some i =>
      have hact : i.act load a = i.act load' a := by
        unfold SockFilter.act
        split_ifs with hld
        · rw [h i (List.mem_of_getElem? hi) hld]
        all_goals rfl
      dsimp only
      rw [hact]
      cases i.act load' a with
      | go skip a' => exact run_congr h n (pc + 1 + skip) a'
      | ret v => rfl
      | fault => rfl

/-- On an accepted program the interpreter is the kernel's machine on the blind block. -/
theorem run_eq_exec_blind (h : Accepted prog) :
    (run prog (ofBlock d)).toOption = Bpf.exec prog (blind d).load := by
  rw [run_eq_exec]
  refine run_congr (fun i hi hld => ?_) _ 0 0
  obtain ⟨hmod, hlt⟩ := h.load i hi hld
  exact loadU32_ofBlock d hmod hlt

/-- The interpreter returns the kernel's verdict exactly when the machine returns the same with the
instruction pointer and the arguments 4 and 5 set to zero: for a call of the filter's own
architecture, exactly when the policy selects the same return value with these arguments zero. -/
theorem agrees_iff {b : Build} {policy : Policy} (hnamed : ∀ e ∈ policy.entries, e.Named)
    (h : policy.codegen b = .ok prog) (d : Bpf.SeccompData) :
    (Agrees prog d ↔ Bpf.exec prog (blind d).load = Bpf.exec prog d.load) ∧
      (d.arch ≠ AUDIT_ARCH_X86_64 → Agrees prog d) ∧
      ((b = .debug ∨ policy.JumpsFit) → d.arch = AUDIT_ARCH_X86_64 →
        (Agrees prog d ↔
          actionToRet (policy.select (chainTruth (readWord (argOf (blindArgs d.args)))) d.nr) =
            actionToRet (policy.select (chainTruth (readWord (argOf d.args))) d.nr))) := by
  have haccepted := codegen_accepted hnamed h
  have hiff : Agrees prog d ↔ Bpf.exec prog (blind d).load = Bpf.exec prog d.load := by
    unfold Agrees
    rw [run_eq_exec_blind haccepted]
  refine ⟨hiff, fun harch => ?_, fun hfit harch => ?_⟩
  · rw [hiff, haccepted.foreign (blind d) harch, haccepted.foreign d harch]
  · have hexec (d' : Bpf.SeccompData) (hd' : d'.arch = AUDIT_ARCH_X86_64) :=
      exec_of_named hnamed h hfit hd'
    rw [hiff, hexec (blind d) harch, hexec d harch, Option.some.injEq]
    rfl

end Agrees

/-- A rule about argument 4. -/
def lastArgPolicy : Policy :=
  ⟨[⟨0, .allow, some (.compare (.arg 4) .eq (.constant 1))⟩], .killProcess⟩

def lastArgProgram : List SockFilter := (lastArgPolicy.codegen .debug).toOption.getD []

/-- A call whose argument 4 is the one the rule asks for. -/
def lastArgCall : Bpf.SeccompData :=
  ⟨0, AUDIT_ARCH_X86_64, 0, fun i => if i = 4 then 1 else 0⟩

theorem lastArgPolicy_named : ∀ e ∈ lastArgPolicy.entries, e.Named := by
  intro e he
  obtain rfl := List.mem_singleton.1 he
  exact ⟨by decide, by simp [Expr.argIndices]⟩

/-- The kernel allows the call, the interpreter kills it. -/
theorem lastArgCall_not_agrees : (∀ e ∈ lastArgPolicy.entries, e.Named) ∧
    lastArgPolicy.codegen .debug = .ok lastArgProgram ∧ ¬ Agrees lastArgProgram lastArgCall := by
  refine ⟨lastArgPolicy_named, rfl, fun h => ?_⟩
  have hinterp : Bpf.exec lastArgProgram (ofBlock lastArgCall).loadU32 =
      some Libc.SECCOMP_RET_KILL_PROCESS := by decide
  have hkernel : Bpf.exec lastArgProgram lastArgCall.load = some Libc.SECCOMP_RET_ALLOW := by
    decide
  unfold Agrees at h
  rw [run_eq_exec, hinterp, hkernel] at h
  revert h
  decide

theorem lastArgCall_agrees_iff : Agrees lastArgProgram lastArgCall ↔
    actionToRet
      (lastArgPolicy.select (chainTruth (readWord (argOf (blindArgs lastArgCall.args)))) 0) =
      actionToRet (lastArgPolicy.select (chainTruth (readWord (argOf lastArgCall.args))) 0) :=
  (agrees_iff lastArgPolicy_named (by rfl : lastArgPolicy.codegen .debug = .ok lastArgProgram)
    lastArgCall).2.2 (.inl rfl) rfl

end Interp

end Pnut.Kafel
