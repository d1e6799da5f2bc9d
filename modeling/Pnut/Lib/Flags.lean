import Mathlib.Tactic

/-!
# Sets of flags in a word

Each flag has a bit of its own. A word is the set of the bits that it has: `bits` is the word of a
list of flags, `union` that of several words, and `Within` says that one word has every bit of
another.
-/

namespace Flags

/-- A kind of flags, each with a bit of a 64-bit word. -/
class BitFlag (R : Type) where
  pos : R → ℕ
  pos_lt (r : R) : pos r < 64
  pos_injective : Function.Injective pos

variable {R : Type} [BitFlag R]

def bit (r : R) : UInt64 := 1 <<< UInt64.ofNat (BitFlag.pos r)

def bits (rs : List R) : UInt64 := rs.foldr (fun r mask => bit r ||| mask) 0

def union (masks : List UInt64) : UInt64 := masks.foldr (· ||| ·) 0

/-- `b` has every bit of `a`. -/
def Within (a b : UInt64) : Prop := a &&& b = a

instance (a b : UInt64) : Decidable (Within a b) := inferInstanceAs (Decidable (_ = _))

/-! ## Bits -/

def Has (mask : UInt64) (i : ℕ) : Prop := mask.toNat.testBit i = true

theorem ext {a b : UInt64} (h : ∀ i, Has a i ↔ Has b i) : a = b :=
  UInt64.toNat_inj.1 (Nat.eq_of_testBit_eq fun i => Bool.eq_iff_iff.2 (h i))

@[simp] theorem has_zero (i : ℕ) : ¬ Has 0 i := by simp [Has]

@[simp] theorem has_or {a b : UInt64} {i : ℕ} : Has (a ||| b) i ↔ Has a i ∨ Has b i := by
  unfold Has
  rw [UInt64.toNat_or, Nat.testBit_or, Bool.or_eq_true]

@[simp] theorem has_and {a b : UInt64} {i : ℕ} : Has (a &&& b) i ↔ Has a i ∧ Has b i := by
  unfold Has
  rw [UInt64.toNat_and, Nat.testBit_and, Bool.and_eq_true]

theorem lt_of_has {a : UInt64} {i : ℕ} (h : Has a i) : i < 64 := by
  by_contra hi
  have hlt : a.toNat < 2 ^ i := a.toNat_lt.trans_le (Nat.pow_le_pow_right two_pos (not_lt.1 hi))
  rw [Has, Nat.testBit_lt_two_pow hlt] at h
  cases h

@[simp] theorem has_and_not {a b : UInt64} {i : ℕ} : Has (a &&& ~~~b) i ↔ Has a i ∧ ¬ Has b i := by
  rw [has_and]
  refine and_congr_right fun ha => ?_
  have hnot : (~~~b).toNat = 2 ^ 64 - (b.toNat + 1) := by
    rw [UInt64.toNat_not, Nat.sub_sub, Nat.add_comm]
    rfl
  unfold Has
  rw [hnot, Nat.testBit_two_pow_sub_succ b.toNat_lt, decide_eq_true (lt_of_has ha)]
  simp

theorem has_one_shiftLeft {n : UInt64} (hn : n.toNat < 64) {i : ℕ} :
    Has (1 <<< n) i ↔ n.toNat = i := by
  have hbit : (1 <<< n : UInt64).toNat = 2 ^ n.toNat := by
    rw [UInt64.toNat_shiftLeft, UInt64.toNat_one, Nat.mod_eq_of_lt hn, Nat.one_shiftLeft,
      Nat.mod_eq_of_lt (Nat.pow_lt_pow_right one_lt_two hn)]
  unfold Has
  rw [hbit, Nat.testBit_two_pow, decide_eq_true_iff]

@[simp] theorem has_bit {r : R} {i : ℕ} : Has (bit r) i ↔ BitFlag.pos r = i := by
  have hlt := BitFlag.pos_lt r
  have hpos : (UInt64.ofNat (BitFlag.pos r)).toNat = BitFlag.pos r := by
    rw [UInt64.toNat_ofNat', Nat.mod_eq_of_lt (hlt.trans (by norm_num))]
  unfold bit
  rw [has_one_shiftLeft (by rwa [hpos]), hpos]

theorem has_bits {rs : List R} {i : ℕ} : Has (bits rs) i ↔ ∃ r ∈ rs, BitFlag.pos r = i := by
  induction rs with
  | nil => simp [bits]
  | cons r rs ih =>
    show Has (bit r ||| bits rs) i ↔ _
    rw [has_or, has_bit, ih, List.exists_mem_cons_iff]

theorem has_bits_pos {rs : List R} {r : R} : Has (bits rs) (BitFlag.pos r) ↔ r ∈ rs := by
  rw [has_bits]
  constructor
  · rintro ⟨r', hr', hpos⟩
    exact BitFlag.pos_injective hpos ▸ hr'
  · exact fun hr => ⟨r, hr, rfl⟩

theorem has_union {masks : List UInt64} {i : ℕ} : Has (union masks) i ↔ ∃ m ∈ masks, Has m i := by
  induction masks with
  | nil => simp [union]
  | cons m masks ih =>
    show Has (m ||| union masks) i ↔ _
    rw [has_or, ih, List.exists_mem_cons_iff]

/-! ## Words as sets -/

theorem within_iff {a b : UInt64} : Within a b ↔ ∀ i, Has a i → Has b i := by
  constructor
  · intro h i ha
    rw [← show a &&& b = a from h, has_and] at ha
    exact ha.2
  · intro h
    refine ext fun i => ?_
    rw [has_and]
    exact and_iff_left_of_imp (h i)

theorem within_bits {rs ss : List R} : Within (bits rs) (bits ss) ↔ ∀ r ∈ rs, r ∈ ss := by
  rw [within_iff]
  constructor
  · exact fun h r hr => has_bits_pos.1 (h _ (has_bits_pos.2 hr))
  · intro h i hi
    obtain ⟨r, hr, rfl⟩ := has_bits.1 hi
    exact has_bits_pos.2 (h r hr)

theorem bits_singleton (r : R) : bits [r] = bit r := UInt64.or_zero

theorem within_bit {r : R} {ss : List R} : Within (bit r) (bits ss) ↔ r ∈ ss := by
  rw [← bits_singleton, within_bits, List.forall_mem_singleton]

/-- A union depends on the words alone, not on their order, or how often each comes. -/
theorem union_congr {masks masks' : List UInt64} (h : ∀ m, m ∈ masks ↔ m ∈ masks') :
    union masks = union masks' := by
  refine ext fun i => ?_
  rw [has_union, has_union]
  exact exists_congr fun m => and_congr_left' (h m)

end Flags
