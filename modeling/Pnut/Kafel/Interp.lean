import Pnut.Kafel.ExprBuf

/-!
# The interpreter

The machine the compiler's own tests run programs on. It reads the data block by field, and panics
where the kernel would not have accepted the program.
-/

namespace Pnut.Kafel.Interp

open Bpf (SockFilter)

/-- The interpreter's data block: it has no instruction pointer. -/
structure SeccompData where
  nr : UInt32
  arch : UInt32
  args : Fin 6 → UInt64

/-- `load_u32`: the field that a byte offset stands for. -/
def SeccompData.loadU32 (d : SeccompData) (offset : UInt32) : UInt32 :=
  if offset = 0 then d.nr
  else if offset = 4 then d.arch
  else if h : 16 ≤ offset.toNat ∧ offset.toNat ≤ 47 then
    let argIdx : Fin 6 := ⟨(offset.toNat - 16) / 8, by omega⟩
    let wordIdx := (offset.toNat - 16) % 8
    let val := d.args argIdx
    if wordIdx = 0 then (val &&& 0xFFFFFFFF).toUInt32 else (val >>> 32).toUInt32
  else 0

/-- Where an instruction leads: on, with the program counter and the accumulator, or out. -/
inductive Next where
  | go (pc : ℕ) (a : UInt32)
  | ret (v : UInt32)

/-- The arms of the loop in `run`. -/
def step (d : SeccompData) (insn : SockFilter) (pc : ℕ) (a : UInt32) : Result Next :=
  let jump (c : Bool) : Result Next :=
    .ok (.go (pc + (1 + if c then insn.jt.toNat else insn.jf.toNat)) a)
  if insn.code = BPF_LD_W_ABS then .ok (.go (pc + 1) (d.loadU32 insn.k))
  else if insn.code = BPF_ALU_AND_K then .ok (.go (pc + 1) (a &&& insn.k))
  else if insn.code = BPF_JMP_JEQ_K then jump (a = insn.k)
  else if insn.code = BPF_JMP_JGT_K then jump (insn.k < a)
  else if insn.code = BPF_JMP_JGE_K then jump (insn.k ≤ a)
  else if insn.code = BPF_JMP_JSET_K then jump (a &&& insn.k ≠ 0)
  else if insn.code = BPF_JMP_JA then .ok (.go (pc + (1 + insn.k.toNat)) a)
  else if insn.code = BPF_RET_K then .ok (.ret insn.k)
  else panicWith s!"Unknown BPF opcode: {insn.code}"

/-- Every jump is forward. -/
theorem lt_of_step {d : SeccompData} {insn : SockFilter} {pc pc' : ℕ} {a a' : UInt32}
    (h : step d insn pc a = .ok (.go pc' a')) : pc < pc' := by
  unfold step at h
  dsimp only at h
  split_ifs at h <;>
    simp only [Except.ok.injEq, Next.go.injEq, reduceCtorEq, panicWith_ne_ok] at h <;> omega

/-- The loop of `run`. -/
def runFrom (insns : List SockFilter) (d : SeccompData) (pc : ℕ) (a : UInt32) : Result UInt32 :=
  match insns[pc]? with
  | none => panicWith s!"index out of bounds: the len is {insns.length} but the index is {pc}"
  | some insn =>
    match _h : step d insn pc a with
    | .error e => .error e
    | .ok (.ret v) => .ok v
    | .ok (.go pc_next a') =>
      if insns.length ≤ pc_next then
        panicWith s!"BPF instruction pointer {pc_next} out of bounds (program len={insns.length})"
      else runFrom insns d pc_next a'
termination_by insns.length - pc
decreasing_by
  have := lt_of_step _h
  omega

def run (insns : List SockFilter) (d : SeccompData) : Result UInt32 := runFrom insns d 0 0

end Pnut.Kafel.Interp
