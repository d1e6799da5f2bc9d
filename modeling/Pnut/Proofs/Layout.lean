import Pnut.Proofs.Faithful

/-!
# Lowered filters in full

Where the jumps of a lowered filter are and where they go is fixed by the filter, before any
displacement is computed (`Expr.layout`). The lowering writes just these jumps, each with its exact
displacements, and gives up when one does not fit. With what the code decides this settles the
filters that the generator has code for (`generateExpr_evaluates`).
-/

namespace Pnut.Kafel

open Bpf (SockFilter SeccompData)

/-! ## The layout of a filter -/

/-- A conditional jump: its location, and where it goes when its test holds and when not. -/
structure Jump where
  loc : ℕ
  t : ℕ
  f : ℕ

/-- Both displacements are at most 255. -/
def Jump.Fits (j : Jump) : Prop := j.loc - j.t - 1 ≤ 255 ∧ j.loc - j.f - 1 ≤ 255

structure Layout where
  entry : ℕ
  size : ℕ
  jumps : List Jump

/-- The code that compares an argument with `v`, in front of `n` instructions: a test of the low
word, and tests of the high word in front of it when `v` has one. -/
def comparisonLayout (op : CmpOp) (v : UInt64) (n t f : ℕ) : Layout :=
  let (_, t', f') := cmpJump op t f
  if !needs64bit v then ⟨n + 1, 2, [⟨n, t', f'⟩]⟩
  else match op with
    | .eq | .ne => ⟨n + 3, 4, [⟨n, t', f'⟩, ⟨n + 2, n + 1, f'⟩]⟩
    | _ => ⟨n + 4, 5, [⟨n, t', f'⟩, ⟨n + 2, n + 1, f'⟩, ⟨n + 3, t', n + 2⟩]⟩

/-- A bit test, or a mask and a test. -/
def maskedLayout (op : CmpOp) (v : UInt64) (n t f : ℕ) : Layout :=
  if v = 0 ∧ op = .eq then ⟨n + 1, 2, [⟨n, f, t⟩]⟩
  else if v = 0 ∧ op = .ne then ⟨n + 1, 2, [⟨n, t, f⟩]⟩
  else ⟨n + 2, 3, [⟨n, (cmpJump op t f).2.1, (cmpJump op t f).2.2⟩]⟩

/-- The layout of a filter's code in front of `n` instructions. -/
def Expr.layout : Expr → ℕ → ℕ → ℕ → Layout
  | .boolConst b, _, t, f => ⟨if b then t else f, 0, []⟩
  | .compare (.arg _) op (.constant v), n, t, f => comparisonLayout op v n t f
  | .compare (.constant v) op (.arg _), n, t, f => comparisonLayout (reversedOp op) v n t f
  | .maskedCompare _ _ op (.constant v), n, t, f => maskedLayout op v n t f
  | .and left right, n, t, f =>
    let r := right.layout n t f
    let l := left.layout (n + r.size) r.entry f
    ⟨l.entry, r.size + l.size, r.jumps ++ l.jumps⟩
  | .or left right, n, t, f =>
    let r := right.layout n t f
    let l := left.layout (n + r.size) t r.entry
    ⟨l.entry, r.size + l.size, r.jumps ++ l.jumps⟩
  | .not inner, n, t, f => inner.layout n f t
  | _, _, _, f => ⟨f, 0, []⟩

/-- Code in front of `n` instructions with just the jumps of `jumps`, their displacements exact. -/
inductive Exact (n : ℕ) : List SockFilter → List Jump → Prop where
  | nil : Exact n [] []
  | stmt {new : List SockFilter} {jumps : List Jump} (h : Exact n new jumps) {i : SockFilter}
      (hcode : i.code = Bpf.ldWAbs ∨ i.code = Bpf.aluAndK) (hjt : i.jt = 0) (hjf : i.jf = 0) :
      Exact n (i :: new) jumps
  | jump {new : List SockFilter} {jumps : List Jump} (h : Exact n new jumps) {i : SockFilter}
      {t f : ℕ} (hcode : i.code = Bpf.jmpJeqK ∨ i.code = Bpf.jmpJgtK ∨ i.code = Bpf.jmpJgeK ∨
        i.code = Bpf.jmpJsetK)
      (hjt : n + new.length = t + 1 + i.jt.toNat) (hjf : n + new.length = f + 1 + i.jf.toNat) :
      Exact n (i :: new) (jumps ++ [⟨n + new.length, t, f⟩])

section Exact

variable {n : ℕ} {new left : List SockFilter} {jumps jumps' : List Jump}

theorem Exact.load (h : Exact n new jumps) (idx : UInt8) (high : Bool) :
    Exact n (ExprBuf.emitArgLoad new idx high) jumps :=
  h.stmt (.inl BPF_LD_W_ABS_eq) rfl rfl

theorem Exact.append (h : Exact n new jumps) (hl : Exact (n + new.length) left jumps') :
    Exact n (left ++ new) (jumps ++ jumps') := by
  induction hl with
  | nil => simpa using h
  | stmt _ hcode hjt hjf ih => exact ih.stmt hcode hjt hjf
  | @jump left jumps' _ i t f hcode hjt hjf ih =>
    have hlen : n + new.length + left.length = n + (left ++ new).length := by
      rw [List.length_append]
      omega
    rw [List.cons_append, ← List.append_assoc, hlen]
    exact ih.jump hcode (hlen ▸ hjt) (hlen ▸ hjf)

end Exact

/-! ## The lowering follows the layout -/

/-- The result of a lowering into `buf`: the code of the layout, or an error when a jump of it does
not fit. -/
def Layout.Lowers (l : Layout) (buf : ExprBuf) (r : Result (ℕ × ExprBuf)) : Prop :=
  ((∀ j ∈ l.jumps, j.Fits) ∧ ∃ new, r = .ok (l.entry, new ++ buf) ∧ new.length = l.size ∧
    Exact buf.length new l.jumps) ∨
  ((∃ j ∈ l.jumps, ¬ j.Fits) ∧ ∃ e, r = errWith e)

section Emit

variable {buf : ExprBuf} {new : List SockFilter} {jumps : List Jump}

theorem jumpOffset_cases {source target : ℕ} (h : target < source) :
    (source - target - 1 ≤ 255 ∧ ∃ off, ExprBuf.jumpOffset source target = .ok off ∧
      source = target + 1 + off.toNat) ∨
    (255 < source - target - 1 ∧ ∃ e, ExprBuf.jumpOffset source target = errWith e) := by
  simp only [ExprBuf.jumpOffset]
  rw [if_neg (by omega)]
  by_cases hfar : 255 < source - target - 1
  · exact .inr ⟨hfar, _, if_pos hfar⟩
  · refine .inl ⟨by omega, _, if_neg hfar, ?_⟩
    rw [UInt8.toNat_ofNat']
    omega

/-- A jump on the way to a layout: it is pushed with its exact displacements, or one of them does
not fit. -/
theorem lowers_emitJump {l : Layout} {cont : ExprBuf → Result (ℕ × ExprBuf)} {rest : List Jump}
    {t f : ℕ} {code : UInt16} (k : UInt32) (h : Exact buf.length new jumps)
    (hcode : code = Bpf.jmpJeqK ∨ code = Bpf.jmpJgtK ∨ code = Bpf.jmpJgeK ∨ code = Bpf.jmpJsetK)
    (ht : t < buf.length + new.length) (hf : f < buf.length + new.length)
    (hl : l.jumps = jumps ++ ⟨buf.length + new.length, t, f⟩ :: rest)
    (hcont : ∀ i, Exact buf.length (i :: new) (jumps ++ [⟨buf.length + new.length, t, f⟩]) →
      Jump.Fits ⟨buf.length + new.length, t, f⟩ → l.Lowers buf (cont (i :: new ++ buf))) :
    l.Lowers buf (ExprBuf.emitJump (new ++ buf) code k t f >>= cont) := by
  have hlen : (new ++ buf).length = buf.length + new.length := by
    rw [List.length_append, Nat.add_comm]
  have hmem : (⟨buf.length + new.length, t, f⟩ : Jump) ∈ l.jumps := by simp [hl]
  simp only [ExprBuf.emitJump, hlen]
  rcases jumpOffset_cases ht with ⟨hnear, jt, hjt, htn⟩ | ⟨hfar, e, he⟩
  · rcases jumpOffset_cases hf with ⟨hnear', jf, hjf, hfn⟩ | ⟨hfar, e, he⟩
    · rw [hjt, hjf]
      exact hcont ⟨code, jt, jf, k⟩ (h.jump hcode htn hfn) ⟨hnear, hnear'⟩
    · refine .inr ⟨⟨_, hmem, fun hfits => ?_⟩, e, ?_⟩
      · exact absurd hfits.2 (not_le.2 hfar)
      · rw [hjt, he]
        rfl
  · refine .inr ⟨⟨_, hmem, fun hfits => ?_⟩, e, ?_⟩
    · exact absurd hfits.1 (not_le.2 hfar)
    · rw [he]
      rfl

/-- The first jump of a piece of code. -/
theorem lowers_firstJump {l : Layout} {cont : ExprBuf → Result (ℕ × ExprBuf)} {rest : List Jump}
    {t f : ℕ} {code : UInt16} (k : UInt32)
    (hcode : code = Bpf.jmpJeqK ∨ code = Bpf.jmpJgtK ∨ code = Bpf.jmpJgeK ∨ code = Bpf.jmpJsetK)
    (ht : t < buf.length) (hf : f < buf.length) (hl : l.jumps = ⟨buf.length, t, f⟩ :: rest)
    (hcont : ∀ i, Exact buf.length [i] [⟨buf.length, t, f⟩] → Jump.Fits ⟨buf.length, t, f⟩ →
      l.Lowers buf (cont ([i] ++ buf))) :
    l.Lowers buf (ExprBuf.emitJump buf code k t f >>= cont) :=
  lowers_emitJump k .nil hcode ht hf hl hcont

theorem lowers_done {l : Layout} (h : Exact buf.length new l.jumps) (hfits : ∀ j ∈ l.jumps, j.Fits)
    (hsize : new.length = l.size) : l.Lowers buf (.ok (l.entry, new ++ buf)) :=
  .inl ⟨hfits, new, rfl, hsize, h⟩

theorem lowers_nothing {entry : ℕ} : Layout.Lowers ⟨entry, 0, []⟩ buf (.ok (entry, buf)) :=
  .inl ⟨by simp, [], rfl, rfl, .nil⟩

theorem cmpJump_lt (op : CmpOp) {n t f : ℕ} (ht : t < n) (hf : f < n) :
    (cmpJump op t f).2.1 < n ∧ (cmpJump op t f).2.2 < n := by
  cases op <;> simp [cmpJump, ht, hf]

theorem currentLoc_cons (i : SockFilter) (new : List SockFilter) :
    ExprBuf.currentLoc (i :: new ++ buf) = buf.length + new.length := by
  simp [ExprBuf.currentLoc, Nat.add_comm]

theorem currentLoc_load (idx : UInt8) (high : Bool) :
    ExprBuf.currentLoc (ExprBuf.emitArgLoad new idx high ++ buf) = buf.length + new.length :=
  currentLoc_cons _ _

variable {idx : UInt8} {t f : ℕ}

theorem generateCmp32Const_lowers {code : UInt16} (k : UInt32)
    (hcode : code = Bpf.jmpJeqK ∨ code = Bpf.jmpJgtK ∨ code = Bpf.jmpJgeK ∨ code = Bpf.jmpJsetK)
    (ht : t < buf.length) (hf : f < buf.length) :
    Layout.Lowers ⟨buf.length + 1, 2, [⟨buf.length, t, f⟩]⟩ buf
      (generateCmp32Const buf code idx k t f) := by
  refine lowers_firstJump k hcode ht hf rfl fun i hx hfits => ?_
  simp only [emitArgLoad_append, currentLoc_load]
  exact lowers_done (hx.load idx false) (by simpa using hfits) rfl

theorem generateEquality64_lowers (hi lo : UInt32) (ht : t < buf.length) (hf : f < buf.length) :
    Layout.Lowers
      ⟨buf.length + 3, 4, [⟨buf.length, t, f⟩, ⟨buf.length + 2, buf.length + 1, f⟩]⟩ buf
      (generateEquality64 buf idx hi lo t f) := by
  refine lowers_firstJump lo (.inl BPF_JMP_JEQ_K_eq) ht hf rfl fun i hx hfits => ?_
  simp only [emitArgLoad_append, currentLoc_load]
  refine lowers_emitJump hi (hx.load idx false) (.inl BPF_JMP_JEQ_K_eq) (t := buf.length + 1)
    (by simp) (by simp; omega) rfl fun j hx' hfits' => ?_
  simp only [emitArgLoad_append, currentLoc_load]
  exact lowers_done (hx'.load idx true) (by simpa using ⟨hfits, hfits'⟩) rfl

theorem generateInequality64_lowers {code : UInt16} (hi lo : UInt32)
    (hcode : code = Bpf.jmpJeqK ∨ code = Bpf.jmpJgtK ∨ code = Bpf.jmpJgeK ∨ code = Bpf.jmpJsetK)
    (ht : t < buf.length) (hf : f < buf.length) :
    Layout.Lowers ⟨buf.length + 4, 5, [⟨buf.length, t, f⟩, ⟨buf.length + 2, buf.length + 1, f⟩,
      ⟨buf.length + 3, t, buf.length + 2⟩]⟩ buf
      (generateInequality64 buf code idx hi lo t f) := by
  refine lowers_firstJump lo hcode ht hf rfl fun i hx hfits => ?_
  simp only [emitArgLoad_append, currentLoc_load]
  refine lowers_emitJump hi (hx.load idx false) (by simp) (t := buf.length + 1)
    (by simp) (by simp; omega) rfl fun j hx' hfits' => ?_
  simp only [currentLoc_cons]
  refine lowers_emitJump hi hx' (by simp) (f := buf.length + 2) (by simp; omega) (by simp) rfl
    fun k hx'' hfits'' => ?_
  simp only [emitArgLoad_append, currentLoc_load]
  exact lowers_done (hx''.load idx true) (by simpa using ⟨hfits, hfits', hfits''⟩) rfl

theorem generateArgComparison_lowers (op : CmpOp) (v : UInt64) (ht : t < buf.length)
    (hf : f < buf.length) : (comparisonLayout op v buf.length t f).Lowers buf
      (generateArgComparison buf idx op (.constant v) t f) := by
  obtain ⟨ht', hf'⟩ := cmpJump_lt op ht hf
  unfold generateArgComparison comparisonLayout
  simp only [constValue]
  split_ifs with hv
  · exact generateCmp32Const_lowers _ (cmpJump_code ..) ht' hf'
  · cases op with
    | eq => exact generateEquality64_lowers _ _ ht hf
    | ne => exact generateEquality64_lowers _ _ hf ht
    | lt | le | gt | ge => exact generateInequality64_lowers _ _ (by simp [cmpJump]) ht' hf'

theorem generateMaskedCompare_lowers {op : CmpOp} {m v : UInt64} (hm : needs64bit m = false)
    (hv : needs64bit v = false) (ht : t < buf.length) (hf : f < buf.length) :
    (maskedLayout op v buf.length t f).Lowers buf
      (generateMaskedCompare buf idx (.constant m) op (.constant v) t f) := by
  unfold generateMaskedCompare maskedLayout
  simp only [constValue, hm, hv]
  by_cases hset : v = 0 ∧ (op = .eq ∨ op = .ne)
  · obtain ⟨rfl, rfl | rfl⟩ := hset
    · exact generateCmp32Const_lowers _ (.inr (.inr (.inr BPF_JMP_JSET_K_eq))) hf ht
    · exact generateCmp32Const_lowers _ (.inr (.inr (.inr BPF_JMP_JSET_K_eq))) ht hf
  · rw [if_neg fun h => hset ⟨h.1, .inl h.2⟩, if_neg fun h => hset ⟨h.1, .inr h.2⟩,
      if_neg (by simpa using hset), if_pos (by rfl)]
    obtain ⟨ht', hf'⟩ := cmpJump_lt op ht hf
    refine lowers_firstJump _ (cmpJump_code ..) ht' hf' rfl fun i hx hfits => ?_
    have hmask := hx.stmt (i := ⟨BPF_ALU_AND_K, 0, 0, m.toUInt32⟩) (.inr BPF_ALU_AND_K_eq) rfl rfl
    exact lowers_done (l := ⟨_, 3, [⟨buf.length, _, _⟩]⟩) (hmask.load idx false)
      (by simpa using hfits) rfl

end Emit

/-! ## Filters with code for every comparison -/

/-- Trees over comparisons of an argument with a constant, and masked comparisons with words. -/
inductive Expr.Coded : Expr → Prop where
  | boolConst (b : Bool) : Coded (.boolConst b)
  | argConst {idx : UInt8} (hidx : idx < 6) (op : CmpOp) (v : UInt64) :
      Coded (.compare (.arg idx) op (.constant v))
  | constArg {idx : UInt8} (hidx : idx < 6) (op : CmpOp) (v : UInt64) :
      Coded (.compare (.constant v) op (.arg idx))
  | masked {idx : UInt8} (hidx : idx < 6) {mask v : UInt64} (hmask : mask ≤ 0xFFFFFFFF)
      (op : CmpOp) (hv : v ≤ 0xFFFFFFFF) :
      Coded (.maskedCompare idx (.constant mask) op (.constant v))
  | and {left right : Expr} (hl : Coded left) (hr : Coded right) : Coded (.and left right)
  | or {left right : Expr} (hl : Coded left) (hr : Coded right) : Coded (.or left right)
  | not {inner : Expr} (h : Coded inner) : Coded (.not inner)

section Evaluation

variable (args : UInt8 → UInt64)

/-- The argument as it is compared with `v`: whole, or its low word. -/
def comparedArg (idx : UInt8) (v : UInt64) : UInt64 :=
  if v > 0xFFFFFFFF then args idx else (args idx).toUInt32.toUInt64

/-- The value of a tree over such comparisons. -/
def Expr.evaluates : Expr → Bool
  | .boolConst b => b
  | .compare (.arg idx) op (.constant v) => evaluateCmp op (comparedArg args idx v) v
  | .compare (.constant v) op (.arg idx) => evaluateCmp op v (comparedArg args idx v)
  | .maskedCompare idx (.constant mask) op (.constant v) => evaluateCmp op (args idx &&& mask) v
  | .and left right => left.evaluates && right.evaluates
  | .or left right => left.evaluates || right.evaluates
  | .not inner => !inner.evaluates
  | _ => false

end Evaluation

theorem needs64bit_of_le {v : UInt64} (h : v ≤ 0xFFFFFFFF) : needs64bit v = false := by
  simpa [needs64bit] using h

/-- A mask of the low word hides the high one. -/
theorem toUInt32_and_mask {mask : UInt64} (h : needs64bit mask = false) (x : UInt64) :
    x.toUInt32.toUInt64 &&& mask = x &&& mask := by
  rw [and_toUInt64 h, ← UInt64.toUInt32_and]
  refine toUInt64_toUInt32 (needs64bit_eq_false.2 ?_)
  rw [UInt64.toNat_and]
  exact Nat.and_lt_two_pow _ (needs64bit_eq_false.1 h)

namespace Expr.Coded

variable {e : Expr}

theorem decided_eq (he : e.Coded) (d : SeccompData) :
    e.decided (readArg d.load) = e.evaluates (argOf d.args) := by
  have hread {idx : UInt8} (hidx : idx < 6) (wide : Bool) :
      readArg d.load idx wide = readWord (argOf d.args) idx wide :=
    readArg_load d (by simpa [UInt8.lt_iff_toNat_lt] using hidx) wide
  induction he with
  | boolConst b => rfl
  | argConst hidx op v | constArg hidx op v =>
    simp only [Expr.decided, comparisonDecided, Expr.evaluates, hread hidx]
    by_cases hv : v > 0xFFFFFFFF <;> simp [readWord, comparedArg, needs64bit, hv]
  | masked hidx hmask op hv =>
    simp only [Expr.decided, maskedDecided, Expr.evaluates, hread hidx, needs64bit_of_le hmask,
      needs64bit_of_le hv, Bool.not_false, Bool.and_self, Bool.true_and]
    rw [readWord, if_neg (by simp), toUInt32_and_mask (needs64bit_of_le hmask)]
  | and _ _ ihl ihr | or _ _ ihl ihr => rw [Expr.decided, Expr.evaluates, ihl, ihr]
  | not _ ih => rw [Expr.decided, Expr.evaluates, ih]

theorem entry_lt (he : e.Coded) : ∀ {n t f : ℕ}, t < n → f < n →
    (e.layout n t f).entry < n + (e.layout n t f).size := by
  have hcomparison (op : CmpOp) (v : UInt64) (n t f : ℕ) :
      (comparisonLayout op v n t f).entry < n + (comparisonLayout op v n t f).size := by
    unfold comparisonLayout
    split_ifs
    · simp
    · cases op <;> simp
  induction he with
  | boolConst b => intro n t f ht hf; cases b <;> simpa [Expr.layout]
  | argConst _ op v | constArg _ op v => intro n t f _ _; exact hcomparison ..
  | masked _ _ op _ =>
    intro n t f _ _
    simp only [Expr.layout, maskedLayout]
    split_ifs <;> simp
  | and _ _ ihl ihr =>
    intro n t f ht hf
    have := ihl (ihr ht hf) (hf.trans_le (Nat.le_add_right n _))
    simpa [Expr.layout, Nat.add_assoc] using this
  | or _ _ ihl ihr =>
    intro n t f ht hf
    have := ihl (ht.trans_le (Nat.le_add_right n _)) (ihr ht hf)
    simpa [Expr.layout, Nat.add_assoc] using this
  | not _ ih => intro n t f ht hf; exact ih hf ht

/-- The code of the right side, then that of the left side in front of it. -/
theorem lowers_both {buf : ExprBuf} {r l : Layout} {right : Result (ℕ × ExprBuf)}
    {left : ℕ × ExprBuf → Result (ℕ × ExprBuf)} (hr : r.Lowers buf right)
    (hl : ∀ new, new.length = r.size → l.Lowers (new ++ buf) (left (r.entry, new ++ buf))) :
    Layout.Lowers ⟨l.entry, r.size + l.size, r.jumps ++ l.jumps⟩ buf (right >>= left) := by
  rcases hr with ⟨hfits, newR, rfl, hsize, hx⟩ | ⟨⟨j, hj, hfar⟩, e, rfl⟩
  · rcases hl newR hsize with ⟨hfits', newL, hleft, hsize', hx'⟩ | ⟨⟨j, hj, hfar⟩, e, he⟩
    · refine .inl ⟨?_, newL ++ newR, ?_, ?_, ?_⟩
      · simp only [List.mem_append]
        rintro j (hj | hj)
        · exact hfits j hj
        · exact hfits' j hj
      · rw [ok_bind, hleft, List.append_assoc]
      · rw [List.length_append, hsize, hsize', Nat.add_comm]
      · rw [List.length_append, Nat.add_comm newR.length] at hx'
        exact hx.append hx'
    · exact .inr ⟨⟨j, List.mem_append_right _ hj, hfar⟩, e, he⟩
  · exact .inr ⟨⟨j, List.mem_append_left _ hj, hfar⟩, e, rfl⟩

theorem lowers (he : e.Coded) : ∀ {buf : ExprBuf} {t f : ℕ}, t < buf.length → f < buf.length →
    (e.layout buf.length t f).Lowers buf (generateExpr buf e t f) := by
  induction he with
  | boolConst b =>
    intro buf t f _ _
    cases b <;> exact lowers_nothing
  | argConst _ op v => intro buf t f ht hf; exact generateArgComparison_lowers op v ht hf
  | constArg _ op v => intro buf t f ht hf; exact generateArgComparison_lowers _ v ht hf
  | masked _ hmask op hv =>
    intro buf t f ht hf
    exact generateMaskedCompare_lowers (needs64bit_of_le hmask) (needs64bit_of_le hv) ht hf
  | @and left right _ hright ihl ihr =>
    intro buf t f ht hf
    refine lowers_both (ihr ht hf) fun new hsize => ?_
    have hlen : (new ++ buf).length = buf.length + (right.layout buf.length t f).size := by
      rw [List.length_append, hsize, Nat.add_comm]
    have := @ihl (new ++ buf) _ f (hlen ▸ hright.entry_lt ht hf) (by rw [hlen]; omega)
    rwa [hlen] at this
  | @or left right _ hright ihl ihr =>
    intro buf t f ht hf
    refine lowers_both (ihr ht hf) fun new hsize => ?_
    have hlen : (new ++ buf).length = buf.length + (right.layout buf.length t f).size := by
      rw [List.length_append, hsize, Nat.add_comm]
    have := @ihl (new ++ buf) t _ (by rw [hlen]; omega) (hlen ▸ hright.entry_lt ht hf)
    rwa [hlen] at this
  | not _ ih => intro buf t f ht hf; exact ih hf ht

end Expr.Coded

/-! ## The lowering evaluates the filter -/

/-- Lowered code, run from its entry until it reaches the buffer it was put in front of. -/
theorem Lowered.runTo {e : Expr} {buf : ExprBuf} {t f entry : ℕ} {new : List SockFilter}
    (h : Lowered e buf.length t f entry new) (ht : t < buf.length) (hf : f < buf.length)
    (load : UInt32 → UInt32) (a : UInt32) :
    ∃ a', Bpf.runTo (new ++ buf) load new.length (new ++ buf).length
        ((new ++ buf).length - 1 - entry) a =
      some ((new ++ buf).length - 1 - (if e.decided (readArg load) then t else f), a') := by
  have hlt : (if e.decided (readArg load) then t else f) < buf.length := by split_ifs <;> assumption
  have hgoes (base : List SockFilter) (_ : base.length = buf.length) : ∃ a',
      Bpf.eval load (new ++ base) (new.length + buf.length - 1 - entry) a =
        Bpf.eval load base (buf.length - 1 - (if e.decided (readArg load) then t else f)) a' := by
    obtain ⟨a', ha⟩ := h.goes load base a
    refine ⟨a', ?_⟩
    rw [Bpf.eval_drop, Bpf.eval_drop base]
    exact ha
  obtain ⟨a', ha⟩ := Bpf.leave_of_forall_eval (by omega) hgoes
  refine ⟨a', ?_⟩
  rw [Bpf.runTo_eq_leave _ _ _ _ _ (by simp; omega), List.length_append, ha]
  simp
  omega

/-- Where a filter's code goes is what the filter evaluates to. The code is put in front of the
buffer, with the jumps of the layout at their exact displacements; it is refused when one is too
far. -/
theorem generateExpr_evaluates {e : Expr} (he : e.Coded) (buf : ExprBuf) {t f : ℕ}
    (ht : t < buf.length) (hf : f < buf.length) :
    (∀ entry buf', generateExpr buf e t f = .ok (entry, buf') → ∃ new, buf' = new ++ buf ∧
      Exact buf.length new (e.layout buf.length t f).jumps ∧ entry < buf'.length ∧
      ∀ (d : SeccompData) (a : UInt32), ∃ a',
        Bpf.runTo buf' d.load new.length buf'.length (buf'.length - 1 - entry) a =
          some (buf'.length - 1 - (if e.evaluates (argOf d.args) then t else f), a')) ∧
    ((∃ j ∈ (e.layout buf.length t f).jumps, ¬ j.Fits) →
      ∃ error, generateExpr buf e t f = errWith error) := by
  constructor
  · intro entry buf' h
    obtain ⟨new, rfl, hlowered⟩ := generateExpr_spec e ht hf h
    refine ⟨new, rfl, ?_, by simpa using hlowered.entry_lt, fun d a => ?_⟩
    · rcases he.lowers ht hf with ⟨-, new', hok, -, hx⟩ | ⟨-, er, her⟩
      · rw [h] at hok
        simp only [Except.ok.injEq, Prod.mk.injEq, List.append_cancel_right_eq] at hok
        exact hok.2 ▸ hx
      · simp [h, errWith] at her
    · rw [← he.decided_eq d]
      exact hlowered.runTo ht hf d.load a
  · rintro ⟨j, hj, hfar⟩
    rcases he.lowers ht hf with ⟨hfits, -⟩ | ⟨-, herr⟩
    · exact absurd (hfits j hj) hfar
    · exact herr

/-- A comparison with a constant of two words under a negation, in front of two exits. -/
def wideFilter : Expr := .not (.compare (.constant 0x100000001) .lt (.arg 2))

def twoExits : ExprBuf := [⟨BPF_RET_K, 0, 0, 1⟩, ⟨BPF_RET_K, 0, 0, 0⟩]

theorem wideFilter_evaluates :
    (∀ entry buf', generateExpr twoExits wideFilter 1 0 = .ok (entry, buf') →
      ∃ new, buf' = new ++ twoExits ∧ Exact twoExits.length new
        (wideFilter.layout twoExits.length 1 0).jumps ∧ entry < buf'.length ∧
      ∀ (d : SeccompData) (a : UInt32), ∃ a',
        Bpf.runTo buf' d.load new.length buf'.length (buf'.length - 1 - entry) a =
          some (buf'.length - 1 - (if wideFilter.evaluates (argOf d.args) then 1 else 0), a')) ∧
    ((∃ j ∈ (wideFilter.layout twoExits.length 1 0).jumps, ¬ j.Fits) →
      ∃ error, generateExpr twoExits wideFilter 1 0 = errWith error) :=
  generateExpr_evaluates (.not (.constArg (by decide) _ _)) twoExits (by decide) (by decide)

end Pnut.Kafel
