import Mathlib.Tactic

/-!
# Classic BPF

The instructions of classic BPF that a seccomp filter is made of, and their execution over the
64-byte `seccomp_data` block. `run` is the kernel's machine, with a program counter; `eval` runs
the code left below an instruction, and is what the proofs use (`run_eq_eval`): every jump is
forward, so a step only drops instructions.

A filter emitted backwards is a list with the newest instruction at the head. Its locations are
counted from the far end, so they keep their meaning when more code is put in front
(`codeAt_append`).
-/

namespace Bpf

/-- `struct sock_filter`. -/
structure SockFilter where
  code : UInt16
  jt : UInt8
  jf : UInt8
  k : UInt32
  deriving DecidableEq, Repr, Inhabited

/-! ## Instruction codes -/

def ldWAbs : UInt16 := 0x20
def aluAndK : UInt16 := 0x54
def jmpJa : UInt16 := 0x05
def jmpJeqK : UInt16 := 0x15
def jmpJgtK : UInt16 := 0x25
def jmpJgeK : UInt16 := 0x35
def jmpJsetK : UInt16 := 0x45
def retK : UInt16 := 0x06

/-- The test of a conditional jump, `none` for the other codes. -/
def condition (code : UInt16) (a k : UInt32) : Option Bool :=
  if code = jmpJeqK then some (a == k)
  else if code = jmpJgtK then some (k < a)
  else if code = jmpJgeK then some (k ≤ a)
  else if code = jmpJsetK then some (a &&& k != 0)
  else none

/-- What one instruction does to the accumulator: go on after skipping some instructions, return,
or fault on a code the machine does not have. -/
inductive Act where
  | go (skip : ℕ) (a : UInt32)
  | ret (v : UInt32)
  | fault

/-- `load` is the data block, read a word at a time. -/
def SockFilter.act (load : UInt32 → UInt32) (a : UInt32) (i : SockFilter) : Act :=
  match condition i.code a i.k with
  | some true => .go i.jt.toNat a
  | some false => .go i.jf.toNat a
  | none =>
    if i.code = ldWAbs then .go 0 (load i.k)
    else if i.code = aluAndK then .go 0 (a &&& i.k)
    else if i.code = jmpJa then .go i.k.toNat a
    else if i.code = retK then .ret i.k
    else .fault

/-- The machine: at most `n` instructions from `pc`, with `a` in the accumulator. -/
def run (prog : List SockFilter) (load : UInt32 → UInt32) : ℕ → ℕ → UInt32 → Option UInt32
  | 0, _, _ => none
  | n + 1, pc, a =>
    match prog[pc]? with
    | none => none
    | some i =>
      match i.act load a with
      | .go skip a' => run prog load n (pc + 1 + skip) a'
      | .ret v => some v
      | .fault => none

/-- A program's verdict, reached within as many steps as it has instructions. -/
def exec (prog : List SockFilter) (load : UInt32 → UInt32) : Option UInt32 :=
  run prog load prog.length 0 0

/-- The verdict of the code below, after skipping `skip` of its instructions. -/
def eval (load : UInt32 → UInt32) : List SockFilter → ℕ → UInt32 → Option UInt32
  | [], _, _ => none
  | _ :: is, skip + 1, a => eval load is skip a
  | i :: is, 0, a =>
    match i.act load a with
    | .go skip a' => eval load is skip a'
    | .ret v => some v
    | .fault => none

section Eval

variable {load : UInt32 → UInt32}

theorem eval_drop : ∀ (is : List SockFilter) (skip : ℕ) (a : UInt32),
    eval load is skip a = eval load (is.drop skip) 0 a
  | [], _, _ => by simp [eval]
  | _ :: _, 0, _ => by simp
  | _ :: is, skip + 1, a => by simp [eval, eval_drop is skip a]

theorem eval_of_act_go {i : SockFilter} {is : List SockFilter} {a a' : UInt32} {skip : ℕ}
    (h : i.act load a = .go skip a') :
    eval load (i :: is) 0 a = eval load (is.drop skip) 0 a' := by
  rw [← eval_drop]
  simp only [eval, h]

theorem eval_of_act_ret {i : SockFilter} {is : List SockFilter} {a v : UInt32}
    (h : i.act load a = .ret v) : eval load (i :: is) 0 a = some v := by
  simp only [eval, h]

theorem run_eq_eval (prog : List SockFilter) : ∀ (n pc : ℕ) (a : UInt32),
    prog.length ≤ pc + n → run prog load n pc a = eval load (prog.drop pc) 0 a
  | 0, pc, a, h => by
    rw [List.drop_eq_nil_of_le (by omega)]
    simp [run, eval]
  | n + 1, pc, a, h => by
    rw [run]
    rcases hp : prog[pc]? with _ | i
    · rw [List.drop_eq_nil_of_le (List.getElem?_eq_none_iff.1 hp)]
      simp [eval]
    · obtain ⟨hlt, rfl⟩ := List.getElem?_eq_some_iff.1 hp
      rw [List.drop_eq_getElem_cons hlt]
      simp only [eval]
      rcases prog[pc].act load a with ⟨skip, a'⟩ | v | _ <;> simp only
      rw [run_eq_eval prog n (pc + 1 + skip) a' (by omega), eval_drop _ skip, List.drop_drop]

theorem exec_eq_eval (prog : List SockFilter) : exec prog load = eval load prog 0 0 := by
  rw [exec, run_eq_eval prog _ _ _ (by omega), List.drop_zero]

end Eval

/-! ## Instructions as they run -/

section Condition

variable (a k : UInt32)

@[simp] theorem condition_jeq : condition jmpJeqK a k = some (a == k) := rfl

@[simp] theorem condition_jgt : condition jmpJgtK a k = some (decide (k < a)) := rfl

@[simp] theorem condition_jge : condition jmpJgeK a k = some (decide (k ≤ a)) := rfl

@[simp] theorem condition_jset : condition jmpJsetK a k = some (a &&& k != 0) := rfl

end Condition

section Act

variable (load : UInt32 → UInt32) (a k : UInt32) (jt jf : UInt8)

@[simp] theorem act_ld : (SockFilter.mk ldWAbs jt jf k).act load a = .go 0 (load k) := by
  simp [SockFilter.act, condition, ldWAbs, jmpJeqK, jmpJgtK, jmpJgeK, jmpJsetK]

@[simp] theorem act_and : (SockFilter.mk aluAndK jt jf k).act load a = .go 0 (a &&& k) := by
  simp [SockFilter.act, condition, ldWAbs, aluAndK, jmpJeqK, jmpJgtK, jmpJgeK, jmpJsetK]

@[simp] theorem act_ja : (SockFilter.mk jmpJa jt jf k).act load a = .go k.toNat a := by
  simp [SockFilter.act, condition, ldWAbs, aluAndK, jmpJa, jmpJeqK, jmpJgtK, jmpJgeK, jmpJsetK]

@[simp] theorem act_ret : (SockFilter.mk retK jt jf k).act load a = .ret k := by
  simp [SockFilter.act, condition, ldWAbs, aluAndK, jmpJa, retK, jmpJeqK, jmpJgtK, jmpJgeK,
    jmpJsetK]

/-- A conditional jump keeps the accumulator. -/
theorem act_of_condition {i : SockFilter} {b : Bool} (h : condition i.code a i.k = some b) :
    i.act load a = .go (if b then i.jt.toNat else i.jf.toNat) a := by
  cases b <;> simp [SockFilter.act, h]

end Act

/-! ## Code emitted backwards -/

/-- The code that runs from location `loc` of a buffer of `n` instructions, whose newest is the
head of `code`. More code may lie below the buffer. -/
def codeAt (n : ℕ) (code : List SockFilter) (loc : ℕ) : List SockFilter :=
  code.drop (n - 1 - loc)

theorem codeAt_append {n loc : ℕ} (h : loc < n) (new code : List SockFilter) :
    codeAt (new.length + n) (new ++ code) loc = codeAt n code loc := by
  have : new.length + n - 1 - loc = new.length + (n - 1 - loc) := by omega
  rw [codeAt, codeAt, this, List.drop_append, List.drop_eq_nil_of_le (by omega)]
  simp

theorem codeAt_cons {n loc : ℕ} (h : loc < n) (i : SockFilter) (code : List SockFilter) :
    codeAt (n + 1) (i :: code) loc = codeAt n code loc := by
  simpa [Nat.add_comm] using codeAt_append h [i] code

@[simp] theorem codeAt_top (n : ℕ) (code : List SockFilter) : codeAt (n + 1) code n = code := by
  simp [codeAt]

/-- A conditional jump in front of a buffer of `n` instructions, its displacements those of two
locations of the buffer. -/
theorem eval_jump {load : UInt32 → UInt32} {i : SockFilter} {n t f : ℕ} {a : UInt32} {b : Bool}
    (hb : condition i.code a i.k = some b) (ht : i.jt.toNat = n - 1 - t)
    (hf : i.jf.toNat = n - 1 - f) (code : List SockFilter) :
    eval load (i :: code) 0 a = eval load (codeAt n code (if b then t else f)) 0 a := by
  rw [eval_of_act_go (act_of_condition _ _ hb), codeAt]
  cases b <;> simp [ht, hf]

/-! ## Code in front of a buffer -/

/-- The machine until it is past the first `stop` instructions: where it is then, and with what in
the accumulator. -/
def runTo (prog : List SockFilter) (load : UInt32 → UInt32) (stop : ℕ) :
    ℕ → ℕ → UInt32 → Option (ℕ × UInt32)
  | 0, pc, a => if stop ≤ pc then some (pc, a) else none
  | n + 1, pc, a =>
    if stop ≤ pc then some (pc, a)
    else match prog[pc]? with
      | none => none
      | some i =>
        match i.act load a with
        | .go skip a' => runTo prog load stop n (pc + 1 + skip) a'
        | _ => none

/-- How many instructions below it code skips when control leaves it, after skipping `skip` of its
own. -/
def leave (load : UInt32 → UInt32) : List SockFilter → ℕ → UInt32 → Option (ℕ × UInt32)
  | [], skip, a => some (skip, a)
  | _ :: is, skip + 1, a => leave load is skip a
  | i :: is, 0, a =>
    match i.act load a with
    | .go skip a' => leave load is skip a'
    | _ => none

section Leave

variable {load : UInt32 → UInt32}

theorem leave_of_le : ∀ {new : List SockFilter} {skip : ℕ} (a : UInt32), new.length ≤ skip →
    leave load new skip a = some (skip - new.length, a)
  | [], _, _, _ => by simp [leave]
  | _ :: _, 0, _, h => by simp at h
  | _ :: is, skip + 1, a, h => by
    rw [leave, leave_of_le a (by simpa using h)]
    simp

theorem leave_drop : ∀ (new : List SockFilter) (skip : ℕ) (a : UInt32), skip ≤ new.length →
    leave load new skip a = leave load (new.drop skip) 0 a
  | _, 0, _, _ => by simp
  | [], _ + 1, _, h => by simp at h
  | _ :: is, skip + 1, a, h => by
    rw [leave, List.drop_succ_cons, leave_drop is skip a (by simpa using h)]

/-- The machine leaves the code in front of others as the code alone does. -/
theorem runTo_eq_leave (new base : List SockFilter) : ∀ (n pc : ℕ) (a : UInt32),
    new.length ≤ pc + n → runTo (new ++ base) load new.length n pc a =
      (leave load new pc a).map fun (skip, a') => (new.length + skip, a')
  | n, pc, a, h => by
    by_cases hpc : new.length ≤ pc
    · have hstop : new.length + (pc - new.length) = pc := by omega
      cases n <;> simp [runTo, hpc, leave_of_le a hpc, hstop]
    rw [not_le] at hpc
    obtain ⟨n, rfl⟩ : ∃ m, n = m + 1 := ⟨n - 1, by omega⟩
    rw [runTo, if_neg (by omega), List.getElem?_append_left hpc, List.getElem?_eq_getElem hpc,
      leave_drop new pc a hpc.le, List.drop_eq_getElem_cons hpc]
    simp only [leave]
    cases hact : new[pc].act load a with
    | go skip a' =>
      simp only
      rw [runTo_eq_leave new base n (pc + 1 + skip) a' (by omega)]
      by_cases hskip : new.length ≤ pc + 1 + skip
      · rw [leave_of_le _ hskip, leave_of_le _ (by simp; omega)]
        simp
        omega
      · rw [leave_drop new _ a' (by omega), leave_drop _ skip a' (by simp; omega), List.drop_drop]
    | ret v => rfl
    | fault => rfl

theorem eval_of_leave : ∀ {new : List SockFilter} {skip s : ℕ} {a a' : UInt32},
    leave load new skip a = some (s, a') → ∀ base,
      eval load (new ++ base) skip a = eval load base s a'
  | [], skip, s, a, a', h, base => by
    simp only [leave, Option.some.injEq, Prod.mk.injEq] at h
    rw [h.1, h.2, List.nil_append]
  | _ :: is, skip + 1, s, a, a', h, base => @eval_of_leave is _ _ _ _ h base
  | i :: is, 0, s, a, a', h, base => by
    simp only [leave] at h
    simp only [List.cons_append, eval]
    cases hact : i.act load a with
    | go skip a₁ =>
      simp only [hact] at h
      exact eval_of_leave h base
    | ret v => simp [hact] at h
    | fault => simp [hact] at h

/-- Code that control does not leave has a verdict of its own. -/
theorem eval_of_leave_none : ∀ {new : List SockFilter} {skip : ℕ} {a : UInt32},
    leave load new skip a = none → ∀ base base',
      eval load (new ++ base) skip a = eval load (new ++ base') skip a
  | [], _, _, h, _, _ => by simp [leave] at h
  | _ :: is, skip + 1, a, h, base, base' => @eval_of_leave_none is _ _ h base base'
  | i :: is, 0, a, h, base, base' => by
    simp only [leave] at h
    simp only [List.cons_append, eval]
    cases hact : i.act load a with
    | go skip a₁ =>
      simp only [hact] at h
      exact eval_of_leave_none h base base'
    | ret v => rfl
    | fault => rfl

/-- Code that goes to one place, whatever lies below it, leaves there. -/
theorem leave_of_forall_eval {new : List SockFilter} {skip n s : ℕ} {a : UInt32} (hs : s < n)
    (h : ∀ base, base.length = n → ∃ a', eval load (new ++ base) skip a = eval load base s a') :
    ∃ a', leave load new skip a = some (s, a') := by
  -- below the code, instruction `s` returns `v` and every other one returns `w`
  let below (v w : UInt32) : List SockFilter :=
    List.ofFn fun i : Fin n => ⟨retK, 0, 0, if i.1 = s then v else w⟩
  have heval (v w : UInt32) {k : ℕ} (hk : k < n) (a : UInt32) :
      eval load (below v w) k a = some (if k = s then v else w) := by
    rw [eval_drop, List.drop_eq_getElem_cons (by simpa [below] using hk)]
    simp [below, eval_of_act_ret (act_ret ..)]
  have hgo (v w : UInt32) : eval load (new ++ below v w) skip a = some v := by
    obtain ⟨a', ha⟩ := h (below v w) (by simp [below])
    rw [ha, heval v w hs, if_pos rfl]
  cases hl : leave load new skip a with
  | none =>
    have := eval_of_leave_none hl (below 0 0) (below 1 1)
    rw [hgo, hgo] at this
    simp at this
  | some r =>
    obtain ⟨k, a'⟩ := r
    have hk := eval_of_leave hl (below 0 1)
    rw [hgo] at hk
    by_cases hlt : k < n
    · rw [heval 0 1 hlt] at hk
      by_cases hks : k = s
      · exact ⟨a', by rw [hks]⟩
      · simp [hks] at hk
    · rw [eval_drop, List.drop_eq_nil_of_le (by simp [below]; omega)] at hk
      simp [eval] at hk

end Leave

/-! ## Closed code -/

/-- `i` stays inside the `n` instructions below it. -/
inductive SockFilter.Within (i : SockFilter) (n : ℕ) : Prop where
  | ret (h : i.code = retK)
  | next (h : i.code = ldWAbs ∨ i.code = aluAndK) (hn : 0 < n)
  | ja (h : i.code = jmpJa) (hk : i.k.toNat < n)
  | cond (h : i.code = jmpJeqK ∨ i.code = jmpJgtK ∨ i.code = jmpJgeK ∨ i.code = jmpJsetK)
      (ht : i.jt.toNat < n) (hf : i.jf.toNat < n)

/-- No instruction leaves the code. -/
def Closed : List SockFilter → Prop
  | [] => True
  | i :: is => i.Within is.length ∧ Closed is

theorem closed_cons {i : SockFilter} {code : List SockFilter} :
    Closed (i :: code) ↔ i.Within code.length ∧ Closed code := Iff.rfl

theorem Closed.drop : ∀ {code : List SockFilter} (n : ℕ), Closed code → Closed (code.drop n)
  | [], _, _ => by simp [Closed]
  | _ :: _, 0, h => h
  | _ :: _, n + 1, h => (Closed.drop n h.2 :)

theorem Closed.within : ∀ {code : List SockFilter} {pc : ℕ} {i : SockFilter}, Closed code →
    code[pc]? = some i → i.Within (code.length - (pc + 1))
  | [], _, _, _, hi => by simp at hi
  | _ :: _, 0, _, h, hi => by
    obtain rfl := Option.some.inj hi
    simpa using h.1
  | _ :: is, pc + 1, _, h, hi => by
    rw [List.length_cons, Nat.add_sub_add_right]
    exact Closed.within h.2 hi

section Within

variable {i : SockFilter} {n : ℕ}

theorem SockFilter.Within.cond_lt (h : i.Within n)
    (hcode : i.code = jmpJeqK ∨ i.code = jmpJgtK ∨ i.code = jmpJgeK ∨ i.code = jmpJsetK) :
    i.jt.toNat < n ∧ i.jf.toNat < n := by
  rcases h with h | ⟨h | h, -⟩ | ⟨h, -⟩ | ⟨-, ht, hf⟩
  case cond => exact ⟨ht, hf⟩
  all_goals rw [h] at hcode; exact absurd hcode (by decide)

theorem SockFilter.Within.ja_lt (h : i.Within n) (hcode : i.code = jmpJa) : i.k.toNat < n := by
  rcases h with h | ⟨h | h, -⟩ | ⟨-, hk⟩ | ⟨h | h | h | h, -, -⟩
  case ja => exact hk
  all_goals rw [h] at hcode; exact absurd hcode (by decide)

end Within

/-- The last instruction has nothing below it to go to. -/
theorem Closed.getLast_ret : ∀ {code : List SockFilter} (_ : Closed code) (hne : code ≠ []),
    (code.getLast hne).code = retK
  | [i], h, _ => by
    rcases h.1 with h | ⟨_, h⟩ | ⟨_, h⟩ | ⟨_, h, _⟩
    · exact h
    all_goals simp at h
  | _ :: j :: is, h, _ => by
    rw [List.getLast_cons (by simp)]
    exact Closed.getLast_ret h.2 _

theorem condition_isSome {code : UInt16}
    (h : code = jmpJeqK ∨ code = jmpJgtK ∨ code = jmpJgeK ∨ code = jmpJsetK) (a k : UInt32) :
    ∃ b, condition code a k = some b := by
  rcases h with rfl | rfl | rfl | rfl <;>
    simp [condition, jmpJeqK, jmpJgtK, jmpJgeK, jmpJsetK]

/-- Closed code returns: every step drops instructions and leaves some. -/
theorem Closed.eval_isSome {load : UInt32 → UInt32} : ∀ (n : ℕ) {code : List SockFilter},
    code.length ≤ n → Closed code → code ≠ [] → ∀ a, ∃ v, eval load code 0 a = some v
  | _, [], _, _, hne, _ => absurd rfl hne
  | 0, _ :: _, hn, _, _, _ => by simp at hn
  | n + 1, i :: is, hn, h, _, a => by
    have step : ∀ {skip : ℕ} {a' : UInt32}, i.act load a = .go skip a' → skip < is.length →
        ∃ v, eval load (i :: is) 0 a = some v := by
      intro skip a' hact hlt
      rw [eval_of_act_go hact]
      refine Closed.eval_isSome n ?_ (h.2.drop skip) ?_ a'
      · simp only [List.length_cons, List.length_drop] at hn ⊢; omega
      · intro he; rw [List.drop_eq_nil_iff] at he; omega
    obtain ⟨code, jt, jf, k⟩ := i
    rcases h.1 with h | ⟨h | h, hpos⟩ | ⟨h, hk⟩ | ⟨h, ht, hf⟩
    · simp only at h; subst h
      exact ⟨k, eval_of_act_ret (act_ret ..)⟩
    · simp only at h; subst h; exact step (act_ld ..) hpos
    · simp only at h; subst h; exact step (act_and ..) hpos
    · simp only at h; subst h; exact step (act_ja ..) hk
    · obtain ⟨b, hb⟩ := condition_isSome h a k
      refine step (act_of_condition _ _ hb) ?_
      cases b <;> simpa

/-! ## The data block -/

/-- `struct seccomp_data`. -/
structure SeccompData where
  nr : UInt32
  arch : UInt32
  ip : UInt64
  args : Fin 6 → UInt64

/-- The `n` low bytes of `x`, low byte first. -/
def leBytes (n x : ℕ) : List UInt8 :=
  (List.range n).map fun i => UInt8.ofNat (x / 256 ^ i)

/-- The 64 bytes of the block, little-endian. -/
def SeccompData.bytes (d : SeccompData) : List UInt8 :=
  leBytes 4 d.nr.toNat ++ leBytes 4 d.arch.toNat ++ leBytes 8 d.ip.toNat ++
    (List.finRange 6).flatMap fun i => leBytes 8 (d.args i).toNat

/-- The little-endian word at byte offset `k`. Bytes past the end read as zero; no filter the
kernel accepts loads one. -/
def SeccompData.load (d : SeccompData) (k : UInt32) : UInt32 :=
  let byte i := (d.bytes.getD (k.toNat + i) 0).toNat
  UInt32.ofNat (byte 0 + 256 * byte 1 + 65536 * byte 2 + 16777216 * byte 3)

section Load

variable (d : SeccompData)

theorem word_of_bytes (x : ℕ) :
    UInt32.ofNat (x % 256) + 256 * UInt32.ofNat (x / 256 % 256) +
      65536 * UInt32.ofNat (x / 65536 % 256) + 16777216 * UInt32.ofNat (x / 16777216 % 256)
      = UInt32.ofNat x := by
  apply UInt32.toNat_inj.1
  simp only [UInt32.toNat_add, UInt32.toNat_mul, UInt32.toNat_ofNat', UInt32.reduceToNat]
  omega

theorem word_of_hi_bytes (x : UInt64) :
    UInt32.ofNat (x.toNat / 4294967296 % 256) +
      (256 : UInt32) * UInt32.ofNat (x.toNat / 1099511627776 % 256) +
      (65536 : UInt32) * UInt32.ofNat (x.toNat / 281474976710656 % 256) +
      (16777216 : UInt32) * UInt32.ofNat (x.toNat / 72057594037927936 % 256) =
        (x >>> 32).toUInt32 := by
  have h := word_of_bytes (x.toNat / 4294967296)
  simp only [Nat.div_div_eq_div_mul, Nat.reduceMul] at h
  rw [h]
  apply UInt32.toNat_inj.1
  simp [Nat.shiftRight_eq_div_pow]

@[simp] theorem load_nr : d.load 0 = d.nr := by
  simp [SeccompData.load, SeccompData.bytes, leBytes, List.range_succ, word_of_bytes]

@[simp] theorem load_arch : d.load 4 = d.arch := by
  simp [SeccompData.load, SeccompData.bytes, leBytes, List.range_succ, word_of_bytes]

/-- The low word of an argument. -/
theorem load_arg_lo (i : Fin 6) : d.load (16 + UInt32.ofNat i * 8) = (d.args i).toUInt32 := by
  fin_cases i <;>
    simp [SeccompData.load, SeccompData.bytes, leBytes, List.range_succ, List.finRange_succ,
      word_of_bytes]

/-- The high word of an argument. -/
theorem load_arg_hi (i : Fin 6) :
    d.load (16 + UInt32.ofNat i * 8 + 4) = (d.args i >>> 32).toUInt32 := by
  fin_cases i <;>
    simp [SeccompData.load, SeccompData.bytes, leBytes, List.range_succ, List.finRange_succ,
      word_of_hi_bytes]

end Load

end Bpf
