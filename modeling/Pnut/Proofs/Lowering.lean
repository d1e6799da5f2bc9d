import Pnut.Kafel.ExprBuf

/-!
# What lowered filters decide

A lowered filter goes to one of its two exits, but it does not always decide what the filter says.
A comparison with a constant below `2 ^ 32` reads the low word of the argument only, and what the
generator has no code for is false (`Expr.decided`). The code may also be entered elsewhere than at
the entry `generate_expr` returns: what runs from its newest instruction is `Expr.decidedTop`.
-/

namespace Pnut.Kafel

open Bpf (SockFilter eval codeAt codeAt_append codeAt_cons codeAt_top Closed closed_cons)

/-! ## The decision -/

/-- Whether `generate_comparison` emits code. -/
def comparisonEmits (lhs rhs : Expr) : Bool :=
  match lhs, rhs with
  | .arg _, .constant _ => true
  | .constant _, .arg _ => true
  | _, _ => false

/-- Whether `generate_masked_compare` has code for the mask and the right side. -/
def maskedEmits (mask rhs : Expr) : Bool :=
  match mask, rhs with
  | .constant m, .constant v => !needs64bit m && !needs64bit v
  | _, _ => false

/-- Whether a filter's code is more than its exits. -/
def Expr.emits : Expr → Bool
  | .compare lhs _ rhs => comparisonEmits lhs rhs
  | .maskedCompare _ mask _ rhs => maskedEmits mask rhs
  | .and left right => left.emits || right.emits
  | .or left right => left.emits || right.emits
  | .not inner => inner.emits
  | _ => false

section Decision

-- `read idx wide` is an argument as the code reads it: whole, or its low word.
variable (read : UInt8 → Bool → UInt64)

def comparisonDecided (lhs : Expr) (op : CmpOp) (rhs : Expr) : Bool :=
  match lhs, rhs with
  | .constant l, .constant r => evaluateCmp op l r
  | .arg idx, .constant v => evaluateCmp op (read idx (needs64bit v)) v
  | .constant v, .arg idx => evaluateCmp op v (read idx (needs64bit v))
  | _, _ => false

def maskedDecided (idx : UInt8) (mask : Expr) (op : CmpOp) (rhs : Expr) : Bool :=
  match mask, rhs with
  | .constant m, .constant v =>
    (!needs64bit m && !needs64bit v) && evaluateCmp op (read idx false &&& m) v
  | _, _ => false

/-- What the code decides when it is entered where `generate_expr` says. -/
def Expr.decided : Expr → Bool
  | .boolConst b => b
  | .compare lhs op rhs => comparisonDecided read lhs op rhs
  | .maskedCompare idx mask op rhs => maskedDecided read idx mask op rhs
  | .and left right => left.decided && right.decided
  | .or left right => left.decided || right.decided
  | .not inner => !inner.decided
  | .constant v => v != 0
  | .arg _ | .bitOr _ => true

/-- What the code decides when it is entered at its newest instruction: a left side that emits
nothing is passed over. -/
def Expr.decidedTop : Expr → Bool
  | .and left right =>
    if left.emits then left.decidedTop && right.decided read else right.decidedTop
  | .or left right =>
    if left.emits then left.decidedTop || right.decided read else right.decidedTop
  | .not inner => !inner.decidedTop
  | e => e.decided read

/-- Whether the chain's code for a filter goes to its action: the chain enters the code at its
newest instruction, and where there is none falls into the jump to the action. -/
def chainTruth (e : Expr) : Bool :=
  if e.emits then e.decidedTop read else true

end Decision

/-! ## The words of an argument -/

section Load

variable (load : UInt32 → UInt32)

/-- One word of an argument, as `emit_arg_load` loads it. -/
def argWord (idx : UInt8) (high : Bool) : UInt32 :=
  load (OFFSET_ARGS + idx.toUInt32 * 8 + if high then 4 else 0)

/-- The argument as a comparison reads it. -/
def readArg (idx : UInt8) (wide : Bool) : UInt64 :=
  if wide then (argWord load idx true).toUInt64 <<< 32 ||| (argWord load idx false).toUInt64
  else (argWord load idx false).toUInt64

end Load

/-! ## Comparisons of words -/

section Words

theorem evaluateCmp_eq_toNat (op : CmpOp) (x y : UInt64) :
    evaluateCmp op x y = match op with
      | .eq => decide (x.toNat = y.toNat)
      | .ne => decide (x.toNat ≠ y.toNat)
      | .lt => decide (x.toNat < y.toNat)
      | .le => decide (x.toNat ≤ y.toNat)
      | .gt => decide (y.toNat < x.toNat)
      | .ge => decide (y.toNat ≤ x.toNat) := by
  cases op <;> simp [evaluateCmp, UInt64.lt_iff_toNat_lt, UInt64.le_iff_toNat_le,
    ← UInt64.toNat_inj, bne, BEq.beq]

theorem evaluateCmp_reversedOp (op : CmpOp) (x y : UInt64) :
    evaluateCmp (reversedOp op) x y = evaluateCmp op y x := by
  cases op <;> simp [evaluateCmp_eq_toNat, reversedOp, eq_comm]

theorem needs64bit_eq_false {v : UInt64} : needs64bit v = false ↔ v.toNat < 2 ^ 32 := by
  simp [needs64bit, UInt64.le_iff_toNat_le]
  omega

theorem toUInt64_toUInt32 {v : UInt64} (h : needs64bit v = false) : v.toUInt32.toUInt64 = v := by
  rw [needs64bit_eq_false] at h
  apply UInt64.toNat_inj.1
  simp
  omega

theorem toNat_high (v : UInt64) : (v >>> 32).toUInt32.toNat = v.toNat / 2 ^ 32 := by
  have := v.toNat_lt
  simp [Nat.shiftRight_eq_div_pow]
  omega

/-- The jump `cmpJump` picks goes where `op` says. -/
theorem condition_cmpJump (op : CmpOp) (t f : ℕ) (a k : UInt32) :
    ∃ b, Bpf.condition (cmpJump op t f).1 a k = some b ∧
      (if b then (cmpJump op t f).2.1 else (cmpJump op t f).2.2) =
        if evaluateCmp op a.toUInt64 k.toUInt64 then t else f := by
  cases op <;> simp only [cmpJump, BPF_JMP_JEQ_K_eq, BPF_JMP_JGT_K_eq, BPF_JMP_JGE_K_eq,
    Bpf.condition_jeq, Bpf.condition_jgt, Bpf.condition_jge, Option.some.injEq,
    exists_eq_left', evaluateCmp_eq_toNat, UInt32.toNat_toUInt64, UInt32.lt_iff_toNat_lt,
    UInt32.le_iff_toNat_le, beq_iff_eq, ← UInt32.toNat_inj, decide_eq_true_eq]
  all_goals split_ifs <;> first | rfl | omega

/-- The two words of an argument, the high one shifted. -/
theorem toNat_shiftLeft_or (hi lo : UInt32) :
    (hi.toUInt64 <<< 32 ||| lo.toUInt64).toNat = hi.toNat * 2 ^ 32 + lo.toNat := by
  have hhi := hi.toNat_lt
  have hlo := lo.toNat_lt
  have hshift : (hi.toUInt64 <<< 32).toNat = hi.toNat <<< 32 := by
    simp [Nat.shiftLeft_eq]
    omega
  rw [UInt64.toNat_or, hshift, UInt32.toNat_toUInt64, ← Nat.shiftLeft_add_eq_or_of_lt hlo,
    Nat.shiftLeft_eq]

theorem toNat_low (v : UInt64) : v.toUInt32.toNat = v.toNat % 2 ^ 32 := by simp

theorem eq_words_iff (hi lo : UInt32) (v : UInt64) :
    hi.toUInt64 <<< 32 ||| lo.toUInt64 = v ↔ hi = (v >>> 32).toUInt32 ∧ lo = v.toUInt32 := by
  have hlo := lo.toNat_lt
  rw [← UInt64.toNat_inj, ← UInt32.toNat_inj, ← UInt32.toNat_inj, toNat_shiftLeft_or, toNat_high,
    toNat_low]
  omega

theorem readArg_true_beq (load : UInt32 → UInt32) (idx : UInt8) (v : UInt64) :
    (readArg load idx true == v) = (argWord load idx true == (v >>> 32).toUInt32 &&
      argWord load idx false == v.toUInt32) := by
  rw [Bool.eq_iff_iff]
  simp only [readArg, if_true, Bool.and_eq_true, beq_iff_eq, eq_words_iff]

/-- Two words are ordered against a constant by the high word, and by the low one when the high
ones agree. -/
theorem condition_cmpJump_words {op : CmpOp} (hop : op ≠ .eq ∧ op ≠ .ne) (t f : ℕ)
    (hi lo : UInt32) (v : UInt64) :
    ∃ b, Bpf.condition (cmpJump op t f).1 lo v.toUInt32 = some b ∧
      (if (v >>> 32).toUInt32 < hi then (cmpJump op t f).2.1
        else if (v >>> 32).toUInt32 ≤ hi then
          if b then (cmpJump op t f).2.1 else (cmpJump op t f).2.2
        else (cmpJump op t f).2.2) =
        if evaluateCmp op (hi.toUInt64 <<< 32 ||| lo.toUInt64) v then t else f := by
  have hlo := lo.toNat_lt
  cases op <;> simp only [cmpJump, BPF_JMP_JEQ_K_eq, BPF_JMP_JGT_K_eq, BPF_JMP_JGE_K_eq,
    Bpf.condition_jeq, Bpf.condition_jgt, Bpf.condition_jge, Option.some.injEq,
    exists_eq_left', evaluateCmp_eq_toNat, UInt32.lt_iff_toNat_lt,
    UInt32.le_iff_toNat_le, decide_eq_true_eq, toNat_shiftLeft_or, toNat_high, toNat_low v]
  · simp at hop
  · simp at hop
  all_goals split_ifs <;> first | rfl | omega

end Words

/-! ## Code pieces -/

/-- The arguments a filter reads. -/
def Expr.argIndices : Expr → List UInt8
  | .arg idx => [idx]
  | .compare lhs _ rhs => lhs.argIndices ++ rhs.argIndices
  | .maskedCompare idx mask _ rhs => idx :: (mask.argIndices ++ rhs.argIndices)
  | .and left right | .or left right => left.argIndices ++ right.argIndices
  | .not inner => inner.argIndices
  | .bitOr parts => partsArgIndices parts
  | .constant _ | .boolConst _ => []
where
  partsArgIndices : List Expr → List UInt8
    | [] => []
    | e :: es => e.argIndices ++ partsArgIndices es

/-- Expression code in front of a buffer of `n` instructions: loads of the arguments `args`,
masks, and jumps to locations already there. -/
inductive Piece (args : List UInt8) (n : ℕ) : List SockFilter → Prop where
  | nil : Piece args n []
  | load {new : List SockFilter} (h : Piece args n new) (hpos : 0 < new.length + n) {idx : UInt8}
      (hidx : idx ∈ args) (high : Bool) : Piece args n (ExprBuf.emitArgLoad new idx high)
  | mask {new : List SockFilter} (h : Piece args n new) (hpos : 0 < new.length + n) (k : UInt32) :
      Piece args n (⟨Bpf.aluAndK, 0, 0, k⟩ :: new)
  | jump {new : List SockFilter} (h : Piece args n new) {i : SockFilter} {t f : ℕ}
      (hcode : i.code = Bpf.jmpJeqK ∨ i.code = Bpf.jmpJgtK ∨ i.code = Bpf.jmpJgeK ∨
        i.code = Bpf.jmpJsetK)
      (ht : t < new.length + n) (hf : f < new.length + n)
      (hjt : i.jt.toNat = new.length + n - 1 - t) (hjf : i.jf.toNat = new.length + n - 1 - f) :
      Piece args n (i :: new)

namespace Piece

variable {args : List UInt8} {n : ℕ} {new : List SockFilter}

theorem mono {args' : List UInt8} (hsub : args ⊆ args') (h : Piece args n new) :
    Piece args' n new := by
  induction h with
  | nil => exact nil
  | load _ hpos hidx high ih => exact ih.load hpos (hsub hidx) high
  | mask _ hpos k ih => exact ih.mask hpos k
  | jump _ hcode ht hf hjt hjf ih => exact ih.jump hcode ht hf hjt hjf

theorem append {right : List SockFilter} (hr : Piece args n right)
    (hl : Piece args (right.length + n) new) : Piece args n (new ++ right) := by
  induction hl with
  | nil => exact hr
  | load _ hpos hidx high ih =>
    exact ih.load (by simpa [List.length_append, Nat.add_assoc] using hpos) hidx high
  | mask _ hpos k ih =>
    exact ih.mask (by simpa [List.length_append, Nat.add_assoc] using hpos) k
  | @jump new _ i t f hcode ht hf hjt hjf ih =>
    have hlen : (new ++ right).length + n = new.length + (right.length + n) := by
      rw [List.length_append, Nat.add_assoc]
    exact ih.jump hcode (hlen ▸ ht) (hlen ▸ hf) (hlen ▸ hjt) (hlen ▸ hjf)

theorem code_ne_ret (h : Piece args n new) : ∀ i ∈ new, i.code ≠ Bpf.retK := by
  induction h with
  | nil => simp
  | load _ _ _ _ ih =>
    simp only [ExprBuf.emitArgLoad, ExprBuf.emitStmt, List.mem_cons, forall_eq_or_imp]
    exact ⟨by decide, ih⟩
  | mask _ _ _ ih =>
    simp only [List.mem_cons, forall_eq_or_imp]
    exact ⟨by decide, ih⟩
  | jump _ hcode _ _ _ _ ih =>
    simp only [List.mem_cons, forall_eq_or_imp]
    refine ⟨?_, ih⟩
    rcases hcode with h | h | h | h <;> rw [h] <;> decide

theorem closed (h : Piece args n new) {base : List SockFilter} (hn : n ≤ base.length)
    (hbase : Closed base) : Closed (new ++ base) := by
  induction h with
  | nil => exact hbase
  | load _ hpos _ _ ih =>
    rw [ExprBuf.emitArgLoad, ExprBuf.emitStmt, List.cons_append, closed_cons, List.length_append]
    exact ⟨.next (.inl (by simp)) (by omega), ih⟩
  | mask _ hpos _ ih =>
    rw [List.cons_append, closed_cons, List.length_append]
    exact ⟨.next (.inr rfl) (by omega), ih⟩
  | jump _ hcode ht hf hjt hjf ih =>
    rw [List.cons_append, closed_cons, List.length_append]
    exact ⟨.cond hcode (by omega) (by omega), ih⟩

end Piece

/-- From `entry`, `new` in front of a buffer of `n` instructions goes to `t` if `truth`, else to
`f`. -/
def Goes (load : UInt32 → UInt32) (new : List SockFilter) (n entry t f : ℕ) (truth : Bool) :
    Prop :=
  ∀ base a, ∃ a', eval load (codeAt (new.length + n) (new ++ base) entry) 0 a =
    eval load (codeAt n base (if truth then t else f)) 0 a'

section Goes

variable {load : UInt32 → UInt32} {left right : List SockFilter} {n e e' t f : ℕ} {b c : Bool}

theorem Goes.nil (h : e = if b then t else f) : Goes load [] n e t f b := fun base a =>
  ⟨a, by simp [h]⟩

theorem Goes.not (h : Goes load left n e f t b) : Goes load left n e t f (!b) := fun base a => by
  obtain ⟨a', ha⟩ := h base a
  exact ⟨a', by cases b <;> simpa using ha⟩

/-- The left code falls through to the right code's entry when its own decision leaves it open. -/
theorem Goes.and (hr : Goes load right n e t f c) (hf : f < n)
    (hl : Goes load left (right.length + n) e' e f b) :
    Goes load (left ++ right) n e' t f (b && c) := fun base a => by
  obtain ⟨a₁, h₁⟩ := hl (right ++ base) a
  rw [← List.append_assoc, ← Nat.add_assoc, ← List.length_append] at h₁
  rw [h₁]
  cases b
  · exact ⟨a₁, by rw [if_neg (by simp), codeAt_append hf]; simp⟩
  · obtain ⟨a₂, h₂⟩ := hr base a₁
    exact ⟨a₂, by simpa using h₂⟩

theorem Goes.or (hr : Goes load right n e t f c) (ht : t < n)
    (hl : Goes load left (right.length + n) e' t e b) :
    Goes load (left ++ right) n e' t f (b || c) := by
  simpa using (Goes.and hr.not ht hl.not).not

end Goes

/-! ## Comparisons -/

theorem jumpOffset_eq_ok {source target : ℕ} {off : UInt8}
    (h : ExprBuf.jumpOffset source target = .ok off) :
    target < source ∧ off.toNat = source - 1 - target := by
  simp only [ExprBuf.jumpOffset] at h
  split_ifs at h with hle hfar
  · simp at h
  · simp at h
  · simp only [Except.ok.injEq] at h
    subst h
    refine ⟨by omega, ?_⟩
    rw [UInt8.toNat_ofNat']
    omega

theorem emitJump_eq_ok {buf buf' : ExprBuf} {code : UInt16} {k : UInt32} {t f : ℕ}
    (h : buf.emitJump code k t f = .ok buf') :
    t < buf.length ∧ f < buf.length ∧ ∃ jt jf : UInt8, buf' = ⟨code, jt, jf, k⟩ :: buf ∧
      jt.toNat = buf.length - 1 - t ∧ jf.toNat = buf.length - 1 - f := by
  simp only [ExprBuf.emitJump, bind_eq_ok, Except.ok.injEq] at h
  obtain ⟨jt, hjt, jf, hjf, rfl⟩ := h
  obtain ⟨ht, hjt⟩ := jumpOffset_eq_ok hjt
  obtain ⟨hf, hjf⟩ := jumpOffset_eq_ok hjf
  exact ⟨ht, hf, jt, jf, rfl, hjt, hjf⟩

/-- From its newest instruction, `new` in front of a buffer of `n` instructions goes to `t` if
`truth`, else to `f`. -/
def Runs (load : UInt32 → UInt32) (new : List SockFilter) (n t f : ℕ) (truth : Bool) : Prop :=
  ∀ base a, ∃ a', eval load (new ++ base) 0 a =
    eval load (codeAt n base (if truth then t else f)) 0 a'

section Runs

variable {load : UInt32 → UInt32} {new : List SockFilter} {n t f entry : ℕ} {truth : Bool}

theorem Runs.goes (h : Runs load new n t f truth) (hentry : entry + 1 = new.length + n) :
    Goes load new n entry t f truth := fun base a => by
  rw [← hentry, codeAt_top]
  exact h base a

theorem Goes.runs (h : Goes load new n entry t f truth) (hentry : entry + 1 = new.length + n) :
    Runs load new n t f truth := fun base a => by
  have := h base a
  rwa [← hentry, codeAt_top] at this

theorem Runs.goes_top (h : Runs load new n t f truth) (hn : 0 < new.length + n) :
    Goes load new n (new.length + n - 1) t f truth := h.goes (by omega)

theorem Runs.not (h : Runs load new n f t truth) : Runs load new n t f (!truth) :=
  fun base a => by
  obtain ⟨a', ha⟩ := h base a
  exact ⟨a', by cases truth <;> simpa using ha⟩

end Runs

/-- Code of a single comparison: it is entered at its newest instruction. -/
structure Leaf (args : List UInt8) (n t f entry : ℕ) (truth : (UInt32 → UInt32) → Bool)
    (new : List SockFilter) : Prop where
  entry_eq : entry + 1 = new.length + n
  pos : 0 < new.length
  piece : Piece args n new
  runs : ∀ load, Runs load new n t f (truth load)

theorem Leaf.not {args : List UInt8} {n t f entry : ℕ} {truth : (UInt32 → UInt32) → Bool}
    {new : List SockFilter} (h : Leaf args n f t entry truth new) :
    Leaf args n t f entry (fun load => !truth load) new :=
  ⟨h.entry_eq, h.pos, h.piece, fun load => (h.runs load).not⟩

theorem cmpJump_code (op : CmpOp) (t f : ℕ) :
    (cmpJump op t f).1 = Bpf.jmpJeqK ∨ (cmpJump op t f).1 = Bpf.jmpJgtK ∨
      (cmpJump op t f).1 = Bpf.jmpJgeK ∨ (cmpJump op t f).1 = Bpf.jmpJsetK := by
  cases op <;> simp [cmpJump]

@[simp] theorem readArg_false (load : UInt32 → UInt32) (idx : UInt8) :
    readArg load idx false = (argWord load idx false).toUInt64 := rfl

/-- A load in front of code runs it with the word loaded. -/
theorem eval_emitArgLoad (load : UInt32 → UInt32) (code base : List SockFilter) (idx : UInt8)
    (high : Bool) (a : UInt32) :
    eval load (ExprBuf.emitArgLoad code idx high ++ base) 0 a =
      eval load (code ++ base) 0 (argWord load idx high) := by
  rw [ExprBuf.emitArgLoad, ExprBuf.emitStmt, BPF_LD_W_ABS_eq, List.cons_append,
    Bpf.eval_of_act_go (Bpf.act_ld ..), List.drop_zero]
  rfl

@[simp] theorem length_emitArgLoad (code : ExprBuf) (idx : UInt8) (high : Bool) :
    (code.emitArgLoad idx high).length = code.length + 1 := rfl

/-- A jump pushed on `new ++ buf`. -/
theorem emitJump_append {args : List UInt8} {buf buf' : ExprBuf} (new : List SockFilter)
    {code : UInt16} {k : UInt32} {t f : ℕ}
    (h : ExprBuf.emitJump (new ++ buf) code k t f = .ok buf') (hp : Piece args buf.length new)
    (hcode : code = Bpf.jmpJeqK ∨ code = Bpf.jmpJgtK ∨ code = Bpf.jmpJgeK ∨
      code = Bpf.jmpJsetK) :
    ∃ i, buf' = i :: new ++ buf ∧ Piece args buf.length (i :: new) ∧
      ∀ (load : UInt32 → UInt32) (base : List SockFilter) {a : UInt32} {b : Bool},
        Bpf.condition code a k = some b →
        eval load (i :: new ++ base) 0 a =
          eval load (codeAt (new.length + buf.length) (new ++ base) (if b then t else f)) 0 a := by
  obtain ⟨ht, hf, jt, jf, rfl, hjt, hjf⟩ := emitJump_eq_ok h
  rw [List.length_append] at ht hf hjt hjf
  exact ⟨⟨code, jt, jf, k⟩, rfl, hp.jump hcode ht hf hjt hjf, fun load base a b hb =>
    Bpf.eval_jump hb hjt hjf (new ++ base)⟩

/-- Code entered at a location taken when it was the newest. -/
theorem eval_codeAt_currentLoc {load : UInt32 → UInt32} {new base : List SockFilter}
    {buf : ExprBuf} {a : UInt32} (hpos : 0 < new.length) :
    eval load (codeAt (new.length + buf.length) (new ++ base) (ExprBuf.currentLoc (new ++ buf)))
      0 a = eval load (new ++ base) 0 a := by
  have : ExprBuf.currentLoc (new ++ buf) + 1 = new.length + buf.length := by
    simp [ExprBuf.currentLoc]
    omega
  rw [← this, codeAt_top]

theorem generateCmp32Const_spec {buf buf' : ExprBuf} {op : CmpOp} {val : UInt64} {idx t f entry}
    (hval : needs64bit val = false)
    (h : generateCmp32Const buf (cmpJump op t f).1 idx val.toUInt32 (cmpJump op t f).2.1
      (cmpJump op t f).2.2 = .ok (entry, buf')) :
    ∃ new, buf' = new ++ buf ∧ Leaf [idx] buf.length t f entry
      (fun load => evaluateCmp op (readArg load idx false) val) new := by
  simp only [generateCmp32Const, bind_eq_ok, Except.ok.injEq, Prod.mk.injEq] at h
  obtain ⟨_, hj, rfl, rfl⟩ := h
  obtain ⟨i, rfl, hp, run⟩ := emitJump_append [] hj .nil (cmpJump_code ..)
  refine ⟨ExprBuf.emitArgLoad [i] idx false, rfl, ?_, by simp, hp.load (by simp) (by simp) false,
    fun load base a => ?_⟩
  · simp [ExprBuf.currentLoc]
    omega
  · obtain ⟨b, hb, hgo⟩ := condition_cmpJump op t f (argWord load idx false) val.toUInt32
    refine ⟨argWord load idx false, ?_⟩
    rw [toUInt64_toUInt32 hval] at hgo
    rw [readArg_false, ← hgo, eval_emitArgLoad, run load base hb]
    simp

@[simp] theorem emitArgLoad_append (new buf : ExprBuf) (idx : UInt8) (high : Bool) :
    ExprBuf.emitArgLoad (new ++ buf) idx high = ExprBuf.emitArgLoad new idx high ++ buf := rfl

theorem generateEquality64_spec {buf buf' : ExprBuf} {val : UInt64} {idx t f entry}
    (h : generateEquality64 buf idx (val >>> 32).toUInt32 val.toUInt32 t f = .ok (entry, buf')) :
    ∃ new, buf' = new ++ buf ∧ Leaf [idx] buf.length t f entry
      (fun load => readArg load idx true == val) new := by
  simp only [generateEquality64, bind_eq_ok, Except.ok.injEq, Prod.mk.injEq] at h
  obtain ⟨_, hlo, _, hhi, rfl, rfl⟩ := h
  have hf := (emitJump_eq_ok hlo).2.1
  obtain ⟨i, rfl, hp, runLo⟩ := emitJump_append [] hlo .nil (.inl BPF_JMP_JEQ_K_eq)
  rw [emitArgLoad_append] at hhi
  obtain ⟨j, rfl, hp, runHi⟩ := emitJump_append _ hhi
    (hp.load (by simp) (List.mem_singleton_self idx) false) (.inl BPF_JMP_JEQ_K_eq)
  refine ⟨ExprBuf.emitArgLoad (j :: ExprBuf.emitArgLoad [i] idx false) idx true, rfl, ?_, by simp,
    hp.load (by simp) (by simp) true, fun load base a => ?_⟩
  · simp [ExprBuf.currentLoc]
    omega
  rw [readArg_true_beq, eval_emitArgLoad, runHi load base (Bpf.condition_jeq ..)]
  by_cases hword : argWord load idx true = (val >>> 32).toUInt32
  · refine ⟨argWord load idx false, ?_⟩
    rw [hword, beq_self_eq_true, if_pos rfl, eval_codeAt_currentLoc (by simp), eval_emitArgLoad,
      runLo load base (Bpf.condition_jeq ..), List.length_nil, Nat.zero_add, List.nil_append,
      Bool.true_and]
  · refine ⟨argWord load idx true, ?_⟩
    rw [beq_false_of_ne hword, if_neg (by simp), codeAt_append hf]
    rfl

theorem generateInequality64_spec {buf buf' : ExprBuf} {op : CmpOp} {val : UInt64} {idx t f entry}
    (hop : op ≠ .eq ∧ op ≠ .ne)
    (h : generateInequality64 buf (cmpJump op t f).1 idx (val >>> 32).toUInt32 val.toUInt32
      (cmpJump op t f).2.1 (cmpJump op t f).2.2 = .ok (entry, buf')) :
    ∃ new, buf' = new ++ buf ∧ Leaf [idx] buf.length t f entry
      (fun load => evaluateCmp op (readArg load idx true) val) new := by
  simp only [generateInequality64, bind_eq_ok, Except.ok.injEq, Prod.mk.injEq] at h
  obtain ⟨_, hlo, _, hge, _, hgt, rfl, rfl⟩ := h
  obtain ⟨ht, hf, -⟩ := emitJump_eq_ok hlo
  obtain ⟨i, rfl, hp, runLo⟩ := emitJump_append [] hlo .nil (cmpJump_code ..)
  rw [emitArgLoad_append] at hge
  obtain ⟨j, rfl, hp, runGe⟩ := emitJump_append _ hge
    (hp.load (by simp) (List.mem_singleton_self idx) false) (by simp)
  obtain ⟨k, rfl, hp, runGt⟩ := emitJump_append _ hgt hp (by simp)
  refine ⟨ExprBuf.emitArgLoad (k :: j :: ExprBuf.emitArgLoad [i] idx false) idx true, rfl, ?_,
    by simp, hp.load (by simp) (by simp) true, fun load base a => ?_⟩
  · simp [ExprBuf.currentLoc]
    omega
  obtain ⟨b, hb, hgo⟩ := condition_cmpJump_words hop t f (argWord load idx true)
    (argWord load idx false) val
  simp only [readArg, if_true]
  rw [← hgo, eval_emitArgLoad, runGt load base (Bpf.condition_jgt ..)]
  by_cases hword : (val >>> 32).toUInt32 < argWord load idx true
  · refine ⟨argWord load idx true, ?_⟩
    rw [decide_eq_true hword, if_pos rfl, if_pos hword, codeAt_append ht]
  rw [decide_eq_false hword, if_neg (by simp), if_neg hword, eval_codeAt_currentLoc (by simp),
    runGe load base (Bpf.condition_jge ..)]
  by_cases hle : (val >>> 32).toUInt32 ≤ argWord load idx true
  · refine ⟨argWord load idx false, ?_⟩
    rw [decide_eq_true hle, if_pos rfl, if_pos hle, eval_codeAt_currentLoc (by simp),
      eval_emitArgLoad, runLo load base hb]
    simp
  · refine ⟨argWord load idx true, ?_⟩
    rw [decide_eq_false hle, if_neg (by simp), if_neg hle, codeAt_append hf]

theorem and_toUInt64 {m : UInt64} (hm : needs64bit m = false) (a : UInt32) :
    a.toUInt64 &&& m = (a &&& m.toUInt32).toUInt64 := by
  rw [UInt32.toUInt64_and, toUInt64_toUInt32 hm]

/-- A bit test against zero, its exits swapped when it is negated. -/
theorem maskedJset_spec {buf buf' : ExprBuf} {op : CmpOp} {m : UInt64} (idx : UInt8)
    {t f jt jf : ℕ} (hm : needs64bit m = false)
    (hop : (op = .eq ∧ jt = f ∧ jf = t) ∨ (op = .ne ∧ jt = t ∧ jf = f))
    (h : buf.emitJump BPF_JMP_JSET_K m.toUInt32 jt jf = .ok buf') :
    ∃ new, buf'.emitArgLoad idx false = new ++ buf ∧
      Leaf [idx] buf.length t f (buf'.emitArgLoad idx false).currentLoc
        (fun load => evaluateCmp op (readArg load idx false &&& m) 0) new := by
  obtain ⟨i, rfl, hp, run⟩ := emitJump_append [] h .nil (by simp)
  refine ⟨ExprBuf.emitArgLoad [i] idx false, rfl, ?_, by simp, hp.load (by simp) (by simp) false,
    fun load base a => ⟨argWord load idx false, ?_⟩⟩
  · simp [ExprBuf.currentLoc]
    omega
  · rw [eval_emitArgLoad, run load base (Bpf.condition_jset ..), readArg_false, and_toUInt64 hm]
    generalize argWord load idx false &&& m.toUInt32 = w
    have hzero : w.toUInt64 = 0 ↔ w = 0 := UInt32.toUInt64_inj (b := 0)
    obtain ⟨rfl, rfl, rfl⟩ | ⟨rfl, rfl, rfl⟩ := hop <;> by_cases hw : w = 0 <;>
      simp [evaluateCmp, hzero, hw]

theorem maskedJump_spec {buf buf' : ExprBuf} {op : CmpOp} {m v : UInt64} {idx t f}
    (hm : needs64bit m = false) (hv : needs64bit v = false)
    (h : buf.emitJump (cmpJump op t f).1 v.toUInt32 (cmpJump op t f).2.1 (cmpJump op t f).2.2 =
      .ok buf') :
    ∃ new, (buf'.emitStmt BPF_ALU_AND_K m.toUInt32).emitArgLoad idx false = new ++ buf ∧
      Leaf [idx] buf.length t f
        ((buf'.emitStmt BPF_ALU_AND_K m.toUInt32).emitArgLoad idx false).currentLoc
        (fun load => evaluateCmp op (readArg load idx false &&& m) v) new := by
  obtain ⟨i, rfl, hp, run⟩ := emitJump_append [] h .nil (cmpJump_code ..)
  refine ⟨ExprBuf.emitArgLoad [⟨_, 0, 0, m.toUInt32⟩, i] idx false, rfl, ?_, by simp,
    (hp.mask (by simp) _).load (by simp) (by simp) false, fun load base a => ?_⟩
  · simp [ExprBuf.currentLoc, ExprBuf.emitStmt]
    omega
  · obtain ⟨b, hb, hgo⟩ := condition_cmpJump op t f (argWord load idx false &&& m.toUInt32)
      v.toUInt32
    refine ⟨argWord load idx false &&& m.toUInt32, ?_⟩
    rw [toUInt64_toUInt32 hv] at hgo
    rw [readArg_false, and_toUInt64 hm, ← hgo, eval_emitArgLoad, List.cons_append,
      BPF_ALU_AND_K_eq, Bpf.eval_of_act_go (Bpf.act_and ..), List.drop_zero, run load base hb]
    simp

/-- `generate_comparison` with an argument against a constant. -/
theorem generateArgComparison_spec {buf buf' : ExprBuf} {op : CmpOp} {v : UInt64} {idx t f entry}
    (h : generateArgComparison buf idx op (.constant v) t f = .ok (entry, buf')) :
    ∃ new, buf' = new ++ buf ∧ Leaf [idx] buf.length t f entry
      (fun load => evaluateCmp op (readArg load idx (needs64bit v)) v) new := by
  simp only [generateArgComparison, constValue] at h
  cases hv : needs64bit v
  · rw [hv] at h
    exact generateCmp32Const_spec hv h
  · rw [hv, if_neg (by simp)] at h
    cases op with
    | eq => exact generateEquality64_spec h
    | ne =>
      obtain ⟨new, rfl, hleaf⟩ := generateEquality64_spec h
      exact ⟨new, rfl, hleaf.not⟩
    | lt | le | gt | ge => exact generateInequality64_spec (by simp) h

/-- What `generate_expr` gives for `e`: code whose entry decides one way, and whose newest
instruction, when there is any, decides in its own. -/
structure Lowered (e : Expr) (n t f entry : ℕ) (new : List SockFilter) : Prop where
  entry_lt : entry < new.length + n
  piece : Piece e.argIndices n new
  goes : ∀ load, Goes load new n entry t f (e.decided (readArg load))
  emits_eq : e.emits = !new.isEmpty
  runs : e.emits = true → ∀ load, Runs load new n t f (e.decidedTop (readArg load))

theorem Leaf.lowered {e : Expr} {args : List UInt8} {n t f entry : ℕ} {new : List SockFilter}
    {truth : (UInt32 → UInt32) → Bool} (h : Leaf args n t f entry truth new)
    (hargs : args = e.argIndices) (hd : ∀ load, e.decided (readArg load) = truth load)
    (htop : ∀ load, e.decidedTop (readArg load) = truth load)
    (hemits : e.emits = true) : Lowered e n t f entry new where
  entry_lt := by have := h.entry_eq; omega
  piece := hargs ▸ h.piece
  goes load := hd load ▸ (h.runs load).goes h.entry_eq
  emits_eq := by
    have := List.length_pos_iff.1 h.pos
    simp [hemits, this]
  runs _ load := htop load ▸ h.runs load

/-- An expression decided without code. -/
theorem Lowered.nil {e : Expr} {n t f entry : ℕ} (ht : t < n) (hf : f < n)
    (h : ∀ load, entry = if e.decided (readArg load) then t else f) (hemits : e.emits = false) :
    Lowered e n t f entry [] where
  entry_lt := by
    have := h fun _ => 0
    split_ifs at this <;> simp <;> omega
  piece := .nil
  goes load := .nil (h load)
  emits_eq := by simp [hemits]
  runs h := absurd h (by simp [hemits])

theorem generateComparison_spec {buf buf' : ExprBuf} {lhs rhs : Expr} {op : CmpOp} {t f entry}
    (ht : t < buf.length) (hf : f < buf.length)
    (h : generateComparison buf lhs op rhs t f = .ok (entry, buf')) :
    ∃ new, buf' = new ++ buf ∧ Lowered (.compare lhs op rhs) buf.length t f entry new := by
  have nothing (hemits : comparisonEmits lhs rhs = false)
      (hd : ∀ load, entry = if comparisonDecided (readArg load) lhs op rhs then t else f)
      (hbuf : buf = buf') :
      ∃ new, buf' = new ++ buf ∧ Lowered (.compare lhs op rhs) buf.length t f entry new :=
    ⟨[], hbuf.symm, .nil ht hf hd hemits⟩
  cases lhs with
  | constant l =>
    cases rhs with
    | constant r =>
      obtain ⟨rfl, rfl⟩ : _ = entry ∧ buf = buf' := by
        simpa [generateComparison, constValue] using h
      exact nothing rfl (fun _ => rfl) rfl
    | arg idx =>
      obtain ⟨new, rfl, hleaf⟩ := generateArgComparison_spec h
      refine ⟨new, rfl, hleaf.lowered (by rfl) (fun load => ?_) (fun load => ?_) rfl⟩ <;>
        exact (evaluateCmp_reversedOp ..).symm
    | _ => simp [generateComparison, constValue] at h
  | arg idx =>
    cases rhs with
    | constant v =>
      obtain ⟨new, rfl, hleaf⟩ := generateArgComparison_spec h
      exact ⟨new, rfl, hleaf.lowered (by rfl) (fun _ => rfl) (fun _ => rfl) rfl⟩
    | _ =>
      obtain ⟨rfl, rfl⟩ : f = entry ∧ buf = buf' := by
        simpa [generateComparison, generateArgComparison, constValue] using h
      exact nothing rfl (fun _ => rfl) rfl
  | _ =>
    obtain ⟨rfl, rfl⟩ : f = entry ∧ buf = buf' := by
      cases rhs <;> simpa [generateComparison, constValue] using h
    exact nothing rfl (fun _ => rfl) rfl

theorem generateMaskedCompare_spec {buf buf' : ExprBuf} {idx : UInt8} {mask rhs : Expr} {op : CmpOp}
    {t f entry : ℕ} (ht : t < buf.length) (hf : f < buf.length)
    (h : generateMaskedCompare buf idx mask op rhs t f = .ok (entry, buf')) :
    ∃ new, buf' = new ++ buf ∧
      Lowered (.maskedCompare idx mask op rhs) buf.length t f entry new := by
  rcases mask with m | _ | _ | _ | _ | _ | _ | _ | _
  case constant =>
    rcases rhs with v | _ | _ | _ | _ | _ | _ | _ | _
    case constant =>
      have narrow {new : List SockFilter} (hm : needs64bit m = false) (hv : needs64bit v = false)
          (hnew : buf' = new ++ buf) (hleaf : Leaf [idx] buf.length t f entry
            (fun load => evaluateCmp op (readArg load idx false &&& m) v) new) :
          ∃ new, buf' = new ++ buf ∧ Lowered (.maskedCompare idx (.constant m) op (.constant v))
            buf.length t f entry new := by
        refine ⟨new, hnew, hleaf.lowered rfl (fun load => ?_) (fun load => ?_) ?_⟩ <;>
          simp [Expr.decided, Expr.decidedTop, maskedDecided, Expr.emits, maskedEmits, hm, hv]
      simp only [generateMaskedCompare, constValue] at h
      split_ifs at h with hset hop hnarrow
      · simp only [Bool.and_eq_true, decide_eq_true_eq, Bool.not_eq_true'] at hset
        obtain ⟨⟨rfl, -⟩, hm⟩ := hset
        simp only [bind_eq_ok, Except.ok.injEq, Prod.mk.injEq] at h
        obtain ⟨_, hj, rfl, rfl⟩ := h
        obtain ⟨new, hnew, hleaf⟩ := maskedJset_spec idx hm (.inl ⟨hop, rfl, rfl⟩) hj
        exact narrow hm rfl hnew hleaf
      · simp only [Bool.and_eq_true, decide_eq_true_eq, Bool.or_eq_true, Bool.not_eq_true'] at hset
        obtain ⟨⟨rfl, hne⟩, hm⟩ := hset
        simp only [bind_eq_ok, Except.ok.injEq, Prod.mk.injEq] at h
        obtain ⟨_, hj, rfl, rfl⟩ := h
        obtain ⟨new, hnew, hleaf⟩ := maskedJset_spec idx hm
          (.inr ⟨hne.resolve_left hop, rfl, rfl⟩) hj
        exact narrow hm rfl hnew hleaf
      · simp only [Bool.and_eq_true, Bool.not_eq_true'] at hnarrow
        simp only [bind_eq_ok, Except.ok.injEq, Prod.mk.injEq] at h
        obtain ⟨_, hj, rfl, rfl⟩ := h
        obtain ⟨new, hnew, hleaf⟩ := maskedJump_spec hnarrow.1 hnarrow.2 hj
        exact narrow hnarrow.1 hnarrow.2 hnew hleaf
      · simp only [Except.ok.injEq, Prod.mk.injEq] at h
        obtain ⟨rfl, rfl⟩ := h
        simp only [Bool.not_eq_true] at hnarrow
        refine ⟨[], rfl, .nil ht hf (fun load => ?_) hnarrow⟩
        simp [Expr.decided, maskedDecided, hnarrow]
    all_goals simp [generateMaskedCompare, constValue] at h
  all_goals simp [generateMaskedCompare, constValue] at h

/-! ## The lowering of an expression -/

section Connectives

variable {e left right : Expr} {n t f entry rightEntry : ℕ} {newL newR : List SockFilter}

theorem Lowered.not (h : Lowered e n f t entry newL) : Lowered (.not e) n t f entry newL where
  entry_lt := h.entry_lt
  piece := h.piece
  goes load := (h.goes load).not
  emits_eq := h.emits_eq
  runs hemits load := (h.runs hemits load).not

/-- Two lowered expressions one in front of the other, the left one's open exit at the right one's
entry. -/
theorem Lowered.and (hf : f < n) (hr : Lowered right n t f rightEntry newR)
    (hl : Lowered left (newR.length + n) rightEntry f entry newL) :
    Lowered (.and left right) n t f entry (newL ++ newR) where
  entry_lt := by simpa [Nat.add_assoc] using hl.entry_lt
  piece := .append (hr.piece.mono (by simp [Expr.argIndices]))
    (hl.piece.mono (by simp [Expr.argIndices]))
  goes load := .and (hr.goes load) hf (hl.goes load)
  emits_eq := by
    simp only [Expr.emits, hl.emits_eq, hr.emits_eq]
    cases newL <;> simp
  runs hemits load := by
    simp only [Expr.emits, Bool.or_eq_true] at hemits
    rw [Expr.decidedTop]
    cases hle : left.emits
    · have hnil : newL = [] := by simpa [hle] using hl.emits_eq
      subst hnil
      simpa using hr.runs (hemits.resolve_left (by simp [hle])) load
    · have hpos : newL ≠ [] := by simpa [hle] using hl.emits_eq
      have := List.length_pos_iff.2 hpos
      exact (Goes.and (hr.goes load) hf ((hl.runs hle load).goes_top (by omega))).runs (by
        simp; omega)

theorem Lowered.or (ht : t < n) (hr : Lowered right n t f rightEntry newR)
    (hl : Lowered left (newR.length + n) t rightEntry entry newL) :
    Lowered (.or left right) n t f entry (newL ++ newR) where
  entry_lt := by simpa [Nat.add_assoc] using hl.entry_lt
  piece := .append (hr.piece.mono (by simp [Expr.argIndices]))
    (hl.piece.mono (by simp [Expr.argIndices]))
  goes load := .or (hr.goes load) ht (hl.goes load)
  emits_eq := by
    simp only [Expr.emits, hl.emits_eq, hr.emits_eq]
    cases newL <;> simp
  runs hemits load := by
    simp only [Expr.emits, Bool.or_eq_true] at hemits
    rw [Expr.decidedTop]
    cases hle : left.emits
    · have hnil : newL = [] := by simpa [hle] using hl.emits_eq
      subst hnil
      simpa using hr.runs (hemits.resolve_left (by simp [hle])) load
    · have hpos : newL ≠ [] := by simpa [hle] using hl.emits_eq
      have := List.length_pos_iff.2 hpos
      exact (Goes.or (hr.goes load) ht ((hl.runs hle load).goes_top (by omega))).runs (by
        simp; omega)

end Connectives

theorem generateExpr_spec : ∀ (e : Expr) {buf buf' : ExprBuf} {t f entry : ℕ},
    t < buf.length → f < buf.length → generateExpr buf e t f = .ok (entry, buf') →
    ∃ new, buf' = new ++ buf ∧ Lowered e buf.length t f entry new
  | .boolConst b, buf, buf', t, f, entry, ht, hf, h => by
    obtain ⟨hentry, rfl⟩ : (if b then t else f) = entry ∧ buf = buf' := by
      cases b <;> simpa [generateExpr] using h
    exact ⟨[], rfl, .nil ht hf (fun _ => hentry.symm) rfl⟩
  | .constant v, buf, buf', t, f, entry, ht, hf, h => by
    simp only [generateExpr, Except.ok.injEq, Prod.mk.injEq] at h
    obtain ⟨rfl, rfl⟩ := h
    exact ⟨[], rfl, .nil ht hf (fun _ => rfl) rfl⟩
  | .arg _, buf, buf', t, f, entry, ht, hf, h | .bitOr _, buf, buf', t, f, entry, ht, hf, h => by
    simp only [generateExpr, Except.ok.injEq, Prod.mk.injEq] at h
    obtain ⟨rfl, rfl⟩ := h
    exact ⟨[], rfl, .nil ht hf (fun _ => rfl) rfl⟩
  | .compare lhs op rhs, buf, buf', t, f, entry, ht, hf, h => generateComparison_spec ht hf h
  | .maskedCompare idx mask op rhs, buf, buf', t, f, entry, ht, hf, h =>
    generateMaskedCompare_spec ht hf h
  | .not inner, buf, buf', t, f, entry, ht, hf, h => by
    obtain ⟨new, rfl, hl⟩ := generateExpr_spec inner hf ht h
    exact ⟨new, rfl, hl.not⟩
  | .and left right, buf, buf', t, f, entry, ht, hf, h => by
    simp only [generateExpr, bind_eq_ok] at h
    obtain ⟨⟨rightEntry, _⟩, hright, hleft⟩ := h
    obtain ⟨newR, rfl, hr⟩ := generateExpr_spec right ht hf hright
    obtain ⟨newL, rfl, hl⟩ := generateExpr_spec left (by simpa using hr.entry_lt)
      (by simp; omega) hleft
    rw [List.length_append] at hl
    exact ⟨newL ++ newR, by simp, hr.and hf hl⟩
  | .or left right, buf, buf', t, f, entry, ht, hf, h => by
    simp only [generateExpr, bind_eq_ok] at h
    obtain ⟨⟨rightEntry, _⟩, hright, hleft⟩ := h
    obtain ⟨newR, rfl, hr⟩ := generateExpr_spec right ht hf hright
    obtain ⟨newL, rfl, hl⟩ := generateExpr_spec left (by simp; omega) (by simpa using hr.entry_lt)
      hleft
    rw [List.length_append] at hl
    exact ⟨newL ++ newR, by simp, hr.or ht hl⟩

end Pnut.Kafel
