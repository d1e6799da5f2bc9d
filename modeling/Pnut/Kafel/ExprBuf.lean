import Pnut.Lib.Bpf
import Pnut.Kafel.Policy

/-!
# Expression lowering

Filters as classic BPF, from `codegen/expr.rs` and the constants of `codegen.rs`.

Both emission buffers are filled backwards: the list holds the newest instruction first, so a push
is a cons, and reversing the buffer at the end leaves the list as it is. A location is an index
into a non-empty buffer, so an `i32` of the source is a natural number here.
-/

namespace Pnut.Kafel

open Bpf (SockFilter)

/-! ## Constants -/

namespace Libc

def BPF_LD : UInt16 := 0x00
def BPF_ALU : UInt16 := 0x04
def BPF_JMP : UInt16 := 0x05
def BPF_RET : UInt16 := 0x06
def BPF_W : UInt16 := 0x00
def BPF_ABS : UInt16 := 0x20
def BPF_AND : UInt16 := 0x50
def BPF_JA : UInt16 := 0x00
def BPF_JEQ : UInt16 := 0x10
def BPF_JGT : UInt16 := 0x20
def BPF_JGE : UInt16 := 0x30
def BPF_JSET : UInt16 := 0x40
def BPF_K : UInt16 := 0x00

def SECCOMP_RET_KILL_PROCESS : UInt32 := 0x80000000
def SECCOMP_RET_KILL : UInt32 := 0x00000000
def SECCOMP_RET_TRAP : UInt32 := 0x00030000
def SECCOMP_RET_ERRNO : UInt32 := 0x00050000
def SECCOMP_RET_TRACE : UInt32 := 0x7ff00000
def SECCOMP_RET_LOG : UInt32 := 0x7ffc0000
def SECCOMP_RET_ALLOW : UInt32 := 0x7fff0000

end Libc

open Libc

def AUDIT_ARCH_X86_64 : UInt32 := 0xC000003E
def OFFSET_ARCH : UInt32 := 4
def OFFSET_NR : UInt32 := 0
def OFFSET_ARGS : UInt32 := 16

def BPF_LD_W_ABS : UInt16 := BPF_LD ||| BPF_W ||| BPF_ABS
def BPF_JMP_JEQ_K : UInt16 := BPF_JMP ||| BPF_JEQ ||| BPF_K
def BPF_JMP_JGT_K : UInt16 := BPF_JMP ||| BPF_JGT ||| BPF_K
def BPF_JMP_JGE_K : UInt16 := BPF_JMP ||| BPF_JGE ||| BPF_K
def BPF_JMP_JSET_K : UInt16 := BPF_JMP ||| BPF_JSET ||| BPF_K
def BPF_ALU_AND_K : UInt16 := BPF_ALU ||| BPF_AND ||| BPF_K
def BPF_JMP_JA : UInt16 := BPF_JMP ||| BPF_JA
def BPF_RET_K : UInt16 := BPF_RET ||| BPF_K

section Codes

@[simp] theorem BPF_LD_W_ABS_eq : BPF_LD_W_ABS = Bpf.ldWAbs := by decide
@[simp] theorem BPF_JMP_JEQ_K_eq : BPF_JMP_JEQ_K = Bpf.jmpJeqK := by decide
@[simp] theorem BPF_JMP_JGT_K_eq : BPF_JMP_JGT_K = Bpf.jmpJgtK := by decide
@[simp] theorem BPF_JMP_JGE_K_eq : BPF_JMP_JGE_K = Bpf.jmpJgeK := by decide
@[simp] theorem BPF_JMP_JSET_K_eq : BPF_JMP_JSET_K = Bpf.jmpJsetK := by decide
@[simp] theorem BPF_ALU_AND_K_eq : BPF_ALU_AND_K = Bpf.aluAndK := by decide
@[simp] theorem BPF_JMP_JA_eq : BPF_JMP_JA = Bpf.jmpJa := by decide
@[simp] theorem BPF_RET_K_eq : BPF_RET_K = Bpf.retK := by decide
@[simp] theorem BPF_JMP_or_JGE : BPF_JMP ||| BPF_JGE = Bpf.jmpJgeK := by decide

end Codes

/-- `SECCOMP_RET_*` of an action. -/
def actionToRet : Action → UInt32
  | .allow => SECCOMP_RET_ALLOW
  | .kill => SECCOMP_RET_KILL
  | .killProcess => SECCOMP_RET_KILL_PROCESS
  | .log => SECCOMP_RET_LOG
  | .userNotif => 0x7FC00000
  | .errno n => SECCOMP_RET_ERRNO ||| (n &&& 0xFFFF)
  | .trap n => SECCOMP_RET_TRAP ||| (n &&& 0xFFFF)
  | .trace n => SECCOMP_RET_TRACE ||| (n &&& 0xFFFF)

/-! ## The buffer -/

/-- `ExprBuf`, newest instruction first. -/
abbrev ExprBuf := List SockFilter

namespace ExprBuf

def currentLoc (buf : ExprBuf) : ℕ := buf.length - 1

def jumpOffset (source target : ℕ) : Result UInt8 :=
  if source ≤ target then
    errWith (.codegen s!"forward jump in reversed buffer: from={source} to={target}" none)
  else
    let offset := source - target - 1
    if 255 < offset then
      errWith (.codegen
        s!"expression too complex: jump offset {offset} exceeds maximum 255" none)
    else .ok (UInt8.ofNat offset)

def emitStmt (buf : ExprBuf) (code : UInt16) (k : UInt32) : ExprBuf :=
  ⟨code, 0, 0, k⟩ :: buf

/-- The jump is pushed first, so its own location is that of the next instruction. -/
def emitJump (buf : ExprBuf) (code : UInt16) (k : UInt32) (tloc floc : ℕ) :
    Result ExprBuf := do
  let loc := buf.length
  let jt ← jumpOffset loc tloc
  let jf ← jumpOffset loc floc
  .ok (⟨code, jt, jf, k⟩ :: buf)

def emitArgLoad (buf : ExprBuf) (argIndex : UInt8) (high : Bool) : ExprBuf :=
  buf.emitStmt BPF_LD_W_ABS (OFFSET_ARGS + argIndex.toUInt32 * 8 + if high then 4 else 0)

end ExprBuf

/-! ## Lowering -/

def needs64bit (val : UInt64) : Bool := val > 0xFFFFFFFF

def constValue : Expr → Option UInt64
  | .constant v => some v
  | _ => none

/-- The jump that decides `op`, and where it goes when it is taken and when it is not. -/
def cmpJump (op : CmpOp) (tloc floc : ℕ) : UInt16 × ℕ × ℕ :=
  match op with
  | .eq => (BPF_JMP_JEQ_K, tloc, floc)
  | .ne => (BPF_JMP_JEQ_K, floc, tloc)
  | .gt => (BPF_JMP_JGT_K, tloc, floc)
  | .ge => (BPF_JMP_JGE_K, tloc, floc)
  | .lt => (BPF_JMP_JGE_K, floc, tloc)
  | .le => (BPF_JMP_JGT_K, floc, tloc)

def generateCmp32Const (buf : ExprBuf) (bpfType : UInt16) (argIndex : UInt8) (val : UInt32)
    (tloc floc : ℕ) : Result (ℕ × ExprBuf) := do
  let buf ← buf.emitJump bpfType val tloc floc
  let buf := buf.emitArgLoad argIndex false
  .ok (buf.currentLoc, buf)

def generateEquality64 (buf : ExprBuf) (argIndex : UInt8) (hi lo : UInt32) (tloc floc : ℕ) :
    Result (ℕ × ExprBuf) := do
  let buf ← buf.emitJump BPF_JMP_JEQ_K lo tloc floc
  let buf := buf.emitArgLoad argIndex false
  let loEntry := buf.currentLoc
  let buf ← buf.emitJump BPF_JMP_JEQ_K hi loEntry floc
  let buf := buf.emitArgLoad argIndex true
  .ok (buf.currentLoc, buf)

def generateInequality64 (buf : ExprBuf) (bpfType : UInt16) (argIndex : UInt8) (hi lo : UInt32)
    (tloc floc : ℕ) : Result (ℕ × ExprBuf) := do
  let buf ← buf.emitJump bpfType lo tloc floc
  let buf := buf.emitArgLoad argIndex false
  let loEntry := buf.currentLoc
  let buf ← buf.emitJump BPF_JMP_JGE_K hi loEntry floc
  let hiGeEntry := buf.currentLoc
  let buf ← buf.emitJump BPF_JMP_JGT_K hi tloc hiGeEntry
  let buf := buf.emitArgLoad argIndex true
  .ok (buf.currentLoc, buf)

/-- `generate_comparison` once its left side is `Arg(arg_index)`. -/
def generateArgComparison (buf : ExprBuf) (argIndex : UInt8) (op : CmpOp) (rhs : Expr)
    (tloc floc : ℕ) : Result (ℕ × ExprBuf) :=
  let (bpfType, effectiveTloc, effectiveFloc) := cmpJump op tloc floc
  match constValue rhs with
  | some val =>
    if !needs64bit val then
      generateCmp32Const buf bpfType argIndex val.toUInt32 effectiveTloc effectiveFloc
    else
      let hi := (val >>> 32).toUInt32
      let lo := val.toUInt32
      match op with
      | .eq => generateEquality64 buf argIndex hi lo tloc floc
      | .ne => generateEquality64 buf argIndex hi lo floc tloc
      | .gt | .ge =>
        generateInequality64 buf bpfType argIndex hi lo effectiveTloc effectiveFloc
      | .lt => generateInequality64 buf BPF_JMP_JGE_K argIndex hi lo effectiveTloc effectiveFloc
      | .le => generateInequality64 buf BPF_JMP_JGT_K argIndex hi lo effectiveTloc effectiveFloc
  | none => .ok (floc, buf)

def reversedOp : CmpOp → CmpOp
  | .eq => .eq
  | .ne => .ne
  | .gt => .lt
  | .ge => .le
  | .lt => .gt
  | .le => .ge

/-- The call back into `generate_comparison` takes the branch for an argument on the left. -/
def generateComparisonSwapped (buf : ExprBuf) (argIndex : UInt8) (op : CmpOp) (constExpr : Expr)
    (tloc floc : ℕ) : Result (ℕ × ExprBuf) :=
  generateArgComparison buf argIndex (reversedOp op) constExpr tloc floc

def generateComparison (buf : ExprBuf) (lhs : Expr) (op : CmpOp) (rhs : Expr) (tloc floc : ℕ) :
    Result (ℕ × ExprBuf) :=
  match constValue lhs, constValue rhs with
  | some lval, some rval => .ok (if evaluateCmp op lval rval then tloc else floc, buf)
  | _, _ =>
    match lhs with
    | .arg idx => generateArgComparison buf idx op rhs tloc floc
    | .constant _ =>
      match rhs with
      | .arg idx => generateComparisonSwapped buf idx op lhs tloc floc
      | _ => errWith (.codegen "both operands are constant but not folded" none)
    | _ => .ok (floc, buf)

def generateMaskedCompare (buf : ExprBuf) (argIndex : UInt8) (mask : Expr) (op : CmpOp)
    (rhs : Expr) (tloc floc : ℕ) : Result (ℕ × ExprBuf) := do
  match constValue mask with
  | none => errWith (.codegen "masked comparison mask is not a constant" none)
  | some maskVal =>
  match constValue rhs with
  | none => errWith (.codegen "masked comparison RHS is not a constant" none)
  | some rhsVal =>
  if rhsVal = 0 && (op = .eq || op = .ne) && !needs64bit maskVal then
    let (jsetTloc, jsetFloc) := if op = .eq then (floc, tloc) else (tloc, floc)
    let buf ← buf.emitJump BPF_JMP_JSET_K maskVal.toUInt32 jsetTloc jsetFloc
    let buf := buf.emitArgLoad argIndex false
    .ok (buf.currentLoc, buf)
  else if !needs64bit maskVal && !needs64bit rhsVal then
    let (bpfType, effectiveTloc, effectiveFloc) := cmpJump op tloc floc
    let buf ← buf.emitJump bpfType rhsVal.toUInt32 effectiveTloc effectiveFloc
    let buf := buf.emitStmt BPF_ALU_AND_K maskVal.toUInt32
    let buf := buf.emitArgLoad argIndex false
    .ok (buf.currentLoc, buf)
  else .ok (floc, buf)

/-- The entry of the code for `expr` that goes to `tloc` when it is true and to `floc` when it is
not, and the buffer with that code. -/
def generateExpr (buf : ExprBuf) : Expr → ℕ → ℕ → Result (ℕ × ExprBuf)
  | .boolConst true, tloc, _ => .ok (tloc, buf)
  | .boolConst false, _, floc => .ok (floc, buf)
  | .and left right, tloc, floc => do
    let (rightEntry, buf) ← generateExpr buf right tloc floc
    generateExpr buf left rightEntry floc
  | .or left right, tloc, floc => do
    let (rightEntry, buf) ← generateExpr buf right tloc floc
    generateExpr buf left tloc rightEntry
  | .not inner, tloc, floc => generateExpr buf inner floc tloc
  | .compare lhs op rhs, tloc, floc => generateComparison buf lhs op rhs tloc floc
  | .maskedCompare argIndex mask op rhs, tloc, floc =>
    generateMaskedCompare buf argIndex mask op rhs tloc floc
  | .constant v, tloc, floc => .ok (if v != 0 then tloc else floc, buf)
  | .arg _, tloc, _ => .ok (tloc, buf)
  | .bitOr _, tloc, _ => .ok (tloc, buf)

end Pnut.Kafel
