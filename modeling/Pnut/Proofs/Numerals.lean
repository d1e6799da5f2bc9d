import Mathlib.Data.Nat.Digits.Lemmas
import Pnut.Child.Directories
import Pnut.Cli.Perms
import Pnut.Proofs.Prefixes

/-!
# Numerals

Each turn of the loop writes the last digit of what is left of the value, so the scratch array
holds the value's digits, the least one first, and the buffer gets them the other way round. There
is room for the largest value in each of the arrays.
-/

namespace Pnut.Child.Digits

open Mount (ENAMETOOLONG)

/-! ## The digits of a value -/

/-- The byte of a digit. -/
def ascii (d : ℕ) : UInt8 := ZERO + UInt8.ofNat d

/-- The digits of a value in a base, the greatest first, as bytes. -/
def numeral (b n : ℕ) : List UInt8 :=
  if n = 0 then [ZERO] else ((Nat.digits b n).map ascii).reverse

/-- A step of the loop over the values of a machine integer takes the last digit off. -/
structure Digital {V : Type} [DecidableEq V] [OfNat V 0] (b : ℕ) (val : V → ℕ) (digit : V → UInt8)
    (next : V → V) : Prop where
  base : 1 < b
  eq_zero (v : V) : v = 0 ↔ val v = 0
  digit (v : V) : digit v = UInt8.ofNat (val v % b)
  next (v : V) : val (next v) = val v / b

theorem digital_decimal : Digital 10 UInt64.toNat (fun value => (value % 10).toUInt8)
    (fun value => value / 10) where
  base := by decide
  eq_zero v := by rw [← UInt64.toNat_inj]; rfl
  digit v := by
    rw [← UInt8.toNat_inj]
    simp
  next v := by simp

theorem digital_octal : Digital 8 UInt32.toNat (fun value => (value &&& 7).toUInt8)
    (fun value => value >>> 3) where
  base := by decide
  eq_zero v := by rw [← UInt32.toNat_inj]; rfl
  digit v := by
    rw [← UInt8.toNat_inj]
    have hmask : ∀ n : ℕ, n &&& 7 = n % 8 := fun n => Nat.and_two_pow_sub_one_eq_mod n 3
    simp only [UInt32.toNat_toUInt8, UInt32.toNat_and, UInt32.reduceToNat, hmask,
      UInt8.toNat_ofNat']
  next v := by
    have hdiv : v.toNat >>> 3 = v.toNat / 8 := Nat.shiftRight_eq_div_pow v.toNat 3
    simp [hdiv]

/-! ## Numerals -/

/-- A text of digits without leading zeros, other than for 0 itself, that denotes the value. -/
structure Renders (b n : ℕ) (text : List UInt8) : Prop where
  ne_nil : text ≠ []
  digits : ∀ byte ∈ text, 48 ≤ byte.toNat ∧ byte.toNat < 48 + b
  leading : text.head? = some 48 → text = [48]
  denotes : text.foldl (fun acc byte => acc * b + (byte.toNat - 48)) 0 = n

theorem toNat_ascii {d : ℕ} (h : d < 10) : (ascii d).toNat = 48 + d := by
  show (UInt8.ofNat 48 + UInt8.ofNat d).toNat = _
  rw [UInt8.toNat_add, UInt8.toNat_ofNat', UInt8.toNat_ofNat']
  omega

/-- The digits from the greatest on make up the value. -/
theorem foldl_digits (b n : ℕ) :
    (Nat.digits b n).reverse.foldl (fun acc d => acc * b + d) 0 = n := by
  have hstep : (fun (d acc : ℕ) => acc * b + d) = fun d acc => (d : ℕ) + b * acc := by
    funext d acc
    rw [Nat.mul_comm, Nat.add_comm]
  have hvalue := Nat.ofDigits_digits b n
  rw [Nat.ofDigits_eq_foldr] at hvalue
  rw [List.foldl_reverse, hstep]
  exact hvalue

theorem numeral_eq_map {b n : ℕ} (hn : n ≠ 0) :
    numeral b n = (Nat.digits b n).reverse.map ascii := by
  unfold numeral
  rw [if_neg hn, List.map_reverse]

theorem renders_numeral {b : ℕ} (hb : 1 < b) (hten : b ≤ 10) (n : ℕ) :
    Renders b n (numeral b n) := by
  by_cases hn : n = 0
  · subst hn
    refine ⟨List.cons_ne_nil _ _, ?_, fun _ => rfl, ?_⟩
    swap
    · show 0 * b + (48 - 48) = 0
      rw [Nat.zero_mul]
    intro byte hbyte
    rw [List.mem_singleton.1 hbyte]
    exact ⟨le_rfl, by show 48 < 48 + b; omega⟩
  · have hlt : ∀ d ∈ (Nat.digits b n).reverse, d < b := fun d hd =>
      Nat.digits_lt_base hb (List.mem_reverse.1 hd)
    have hne : Nat.digits b n ≠ [] := Nat.digits_ne_nil_iff_ne_zero.2 hn
    rw [numeral_eq_map hn]
    refine ⟨by simpa using hne, ?_, ?_, ?_⟩
    · intro byte hbyte
      obtain ⟨d, hd, rfl⟩ := List.mem_map.1 hbyte
      have hd' := hlt d hd
      rw [toNat_ascii (by omega)]
      omega
    · intro hhead
      rw [List.head?_map, List.head?_reverse, List.getLast?_eq_getLast_of_ne_nil hne] at hhead
      have hlast := hlt _ (List.mem_reverse.2 (List.getLast_mem hne))
      have hzero : (ascii ((Nat.digits b n).getLast hne)).toNat = 48 :=
        congrArg UInt8.toNat (Option.some.inj hhead)
      rw [toNat_ascii (by omega)] at hzero
      exact absurd (by omega) (Nat.getLast_digit_ne_zero b hn)
    · rw [List.foldl_map]
      refine (List.foldl_ext _ _ 0 fun acc d hd => ?_).trans (foldl_digits b n)
      have hd' := hlt d hd
      rw [toNat_ascii (by omega), Nat.add_sub_cancel_left]

/-- A numeral has one value. -/
theorem Renders.unique {b n m : ℕ} {text : List UInt8} (h : Renders b n text)
    (h' : Renders b m text) : n = m := h.denotes.symm.trans h'.denotes

/-- The numeral is what the value is written as otherwise. -/
theorem numeral_eq_toDigits {b : ℕ} (hb : 1 < b) (hten : b ≤ 10) (n : ℕ) :
    numeral b n = (Nat.toDigits b n).map fun c => UInt8.ofNat c.toNat := by
  have hdigit : ∀ d < 10, UInt8.ofNat d.digitChar.toNat = ascii d := by decide
  induction n using Nat.strong_induction_on with
  | _ n ih =>
    rw [Nat.toDigits_eq_if hb]
    split_ifs with hlt
    · rw [List.map_singleton, hdigit n (by omega)]
      by_cases hn : n = 0
      · subst hn
        rfl
      · rw [numeral_eq_map hn, Nat.digits_of_lt b n hn hlt]
        rfl
    · have hpos : 0 < n / b := Nat.div_pos (not_lt.1 hlt) (by omega)
      have hmod := Nat.mod_lt n (by omega : 0 < b)
      rw [List.map_append, ← ih (n / b) (Nat.div_lt_self (by omega) hb), List.map_singleton,
        hdigit _ (by omega), numeral_eq_map (by omega), numeral_eq_map (by omega),
        Nat.digits_def' hb (by omega), List.reverse_cons, List.map_append]
      rfl

/-! ## Reading a mode -/

/-- A text of ASCII bytes. -/
def chars (text : List UInt8) : List Char := text.map fun byte => Char.ofNat byte.toNat

theorem toDigit_ascii : ∀ d < 8, Kafel.toDigit 8 (Char.ofNat (ascii d).toNat) = some d := by decide

theorem le_foldl_digits (ds : List ℕ) : ∀ acc : ℕ,
    acc ≤ ds.foldl (fun acc d => acc * 8 + d) acc := by
  induction ds with
  | nil => exact fun acc => le_rfl
  | cons d ds ih =>
    intro acc
    have hle := ih (acc * 8 + d)
    rw [List.foldl_cons]
    omega

/-- No digit takes the value out of `u32` if the last one does not. -/
theorem digits_ascii (ds : List ℕ) : ∀ acc : ℕ, (∀ d ∈ ds, d < 8) →
    ds.foldl (fun acc d => acc * 8 + d) acc < 2 ^ 32 →
    Cli.digits 8 acc (chars (ds.map ascii)) =
      some (UInt32.ofNat (ds.foldl (fun acc d => acc * 8 + d) acc)) := by
  induction ds with
  | nil => exact fun acc _ _ => rfl
  | cons d ds ih =>
    intro acc hds hlt
    obtain ⟨hd, hds⟩ := List.forall_mem_cons.1 hds
    have hle := le_foldl_digits ds (acc * 8 + d)
    rw [List.foldl_cons] at hlt ⊢
    show Cli.digits 8 acc (Char.ofNat (ascii d).toNat :: chars (ds.map ascii)) = _
    rw [Cli.digits, toDigit_ascii d hd]
    dsimp only
    rw [if_pos (by omega), ih _ hds hlt]

theorem parsePerms_digit {c : Char} {s : List Char} (hzero : c ≠ '0') (hplus : c ≠ '+') :
    Cli.parsePerms (c :: s) = (Cli.digits 8 0 (c :: s)).getD 0 := by
  have hradix : Cli.fromStrRadix 8 (c :: s) = Cli.digits 8 0 (c :: s) := by
    unfold Cli.fromStrRadix
    split
    · rename_i heq
      cases heq
    · rename_i heq
      exact absurd (List.cons.inj heq).1 hplus
    · rfl
  have hstrip : Cli.stripZero (c :: s) = c :: s := by
    unfold Cli.stripZero
    split
    · rename_i heq
      exact absurd (List.cons.inj heq).1 hzero
    · rfl
  unfold Cli.parsePerms
  rw [hstrip, ← hradix]
  exact if_neg (List.cons_ne_nil c s)

theorem ascii_char : ∀ d < 8, Char.ofNat (ascii d).toNat = '0' ∨ Char.ofNat (ascii d).toNat = '+' →
    d = 0 := by decide

/-- A mode is read back from its numeral. -/
theorem parsePerms_numeral (mode : UInt32) :
    Cli.parsePerms (chars (numeral 8 mode.toNat)) = mode := by
  by_cases hzero : mode.toNat = 0
  · obtain rfl : mode = 0 := UInt32.toNat_inj.1 hzero
    rfl
  · have hlt : ∀ d ∈ (Nat.digits 8 mode.toNat).reverse, d < 8 := fun d hd =>
      Nat.digits_lt_base (by decide) (List.mem_reverse.1 hd)
    have hvalue := foldl_digits 8 mode.toNat
    have hleading := (renders_numeral (by decide) (by decide) mode.toNat : Renders 8 _ _).leading
    obtain ⟨d, ds, hds⟩ : ∃ d ds, (Nat.digits 8 mode.toNat).reverse = d :: ds :=
      List.exists_cons_of_ne_nil
        (List.reverse_ne_nil_iff.2 (Nat.digits_ne_nil_iff_ne_zero.2 hzero))
    rw [numeral_eq_map hzero, hds] at hleading
    rw [hds] at hlt hvalue
    have hd : d ≠ 0 := by
      rintro rfl
      have hnil : ds.map ascii = [] := (List.cons.inj (hleading rfl)).2
      rw [List.map_eq_nil_iff.1 hnil] at hvalue
      exact hzero hvalue.symm
    have hchar := (ascii_char d (hlt d (List.mem_cons_self ..))).mt hd
    rw [not_or] at hchar
    have hparse := @parsePerms_digit _ (chars (ds.map ascii)) hchar.1 hchar.2
    have hread := digits_ascii (d :: ds) 0 hlt (hvalue ▸ mode.toNat_lt)
    rw [numeral_eq_map hzero, hds]
    refine hparse.trans ?_
    rw [show Char.ofNat (ascii d).toNat :: chars (ds.map ascii) =
      chars ((d :: ds).map ascii) from rfl, hread, hvalue]
    simp

section Loop

variable {V : Type} [DecidableEq V] [OfNat V 0] {b : ℕ} {val : V → ℕ} {digit : V → UInt8}
  {next : V → V}

/-- The loop puts the digits behind what the array begins with, if they fit it. -/
theorem digitLoop_eq (hd : Digital b val digit next) (room : ℕ) : ∀ (value : V)
    (done rest : List UInt8), rest.length = room → (Nat.digits b (val value)).length ≤ room →
    digitLoop digit next room value (done ++ rest) done.length =
      some ((done ++ (Nat.digits b (val value)).map ascii) ++
          rest.drop (Nat.digits b (val value)).length,
        done.length + (Nat.digits b (val value)).length) := by
  induction room with
  | zero =>
    intro value done rest _ hlen
    have hzero : val value = 0 := by
      rw [← Nat.digits_eq_nil_iff_eq_zero]
      exact List.length_eq_zero_iff.1 (Nat.le_zero.1 hlen)
    unfold digitLoop
    rw [if_pos ((hd.eq_zero value).2 hzero), hzero]
    simp
  | succ room ih =>
    intro value done rest hrest hlen
    unfold digitLoop
    by_cases hvalue : value = 0
    · have hzero := (hd.eq_zero value).1 hvalue
      rw [if_pos hvalue, hzero]
      simp
    · have hpos : 0 < val value := Nat.pos_of_ne_zero fun h => hvalue ((hd.eq_zero value).2 h)
      have hdigits : Nat.digits b (val value) =
          val value % b :: Nat.digits b (val (next value)) := by
        rw [hd.next, Nat.digits_def' hd.base hpos]
      have hstore : store (done ++ rest) done.length (ZERO + digit value) =
          some ((done ++ [ascii (val value % b)]) ++ rest.drop 1) := by
        rw [hd.digit]
        exact store_divide rfl (by omega) _
      rw [hdigits, List.length_cons] at hlen
      have hstep := ih (next value) (done ++ [ascii (val value % b)]) (rest.drop 1)
        (by rw [List.length_drop]; omega) (by omega)
      rw [List.length_append, List.length_singleton] at hstep
      rw [if_neg hvalue, hstore]
      show digitLoop digit next room (next value) _ _ = _
      rw [hstep, hdigits, List.length_cons, List.drop_drop]
      simp [Nat.add_comm, Nat.add_left_comm]

/-- The digits turned round, in the front of the buffer. -/
theorem copyDigits_eq (tmp : List UInt8) (len : ℕ) (hlen : len ≤ tmp.length) : ∀ (k idx : ℕ)
    (room : List UInt8), idx + k = len → k ≤ room.length →
    (List.range' idx k).foldlM (copyDigit tmp len) ((tmp.take len).reverse.take idx ++ room) =
      some ((tmp.take len).reverse ++ room.drop k) := by
  intro k
  induction k with
  | zero =>
    intro idx room hidx _
    have htake : (tmp.take len).reverse.take idx = (tmp.take len).reverse :=
      List.take_of_length_le (by rw [List.length_reverse, List.length_take]; omega)
    rw [htake]
    rfl
  | succ k ih =>
    intro idx room hidx hroom
    have hrev : (tmp.take len).reverse.length = len := by
      rw [List.length_reverse, List.length_take]
      omega
    have hlt : idx < (tmp.take len).reverse.length := by omega
    have hbyte : tmp[len - 1 - idx]? = (tmp.take len).reverse[idx]? := by
      rw [List.getElem?_reverse (by rw [List.length_take]; omega), List.length_take,
        min_eq_left hlen, List.getElem?_take_of_lt (by omega)]
    have hcopy : copyDigit tmp len ((tmp.take len).reverse.take idx ++ room) idx =
        some ((tmp.take len).reverse.take (idx + 1) ++ room.drop 1) := by
      unfold copyDigit
      rw [hbyte, List.getElem?_eq_getElem hlt]
      show store _ _ _ = _
      rw [store_divide (by rw [List.length_take]; omega) (by omega), ← List.take_append_getElem hlt]
    rw [List.range'_succ, List.foldlM_cons, hcopy]
    show (List.range' (idx + 1) k).foldlM (copyDigit tmp len) _ = _
    rw [ih (idx + 1) (room.drop 1) (by omega) (by rw [List.length_drop]; omega), List.drop_drop,
      Nat.add_comm 1 k]

/-- The numeral goes to the front of the buffer, if it fits the scratch array and the buffer. -/
theorem writeDigits_eq (hd : Digital b val digit next) {room : ℕ} {value : V} {buf : List UInt8}
    (hroom : (Nat.digits b (val value)).length ≤ room) (hbuf : room ≤ buf.length)
    (hpos : 0 < room) : writeDigits digit next room value buf =
      some (numeral b (val value) ++ buf.drop (numeral b (val value)).length,
        (numeral b (val value)).length) := by
  unfold writeDigits numeral
  by_cases hvalue : value = 0
  · have hstore : store ([] ++ buf) 0 ZERO = some (([] ++ [ZERO]) ++ buf.drop 1) :=
      store_divide rfl (by omega) ZERO
    rw [if_pos hvalue, if_pos ((hd.eq_zero value).1 hvalue), ← List.nil_append buf, hstore]
    rfl
  · obtain ⟨ds, hds⟩ : ∃ ds, (Nat.digits b (val value)).map ascii = ds := ⟨_, rfl⟩
    have hlen : (Nat.digits b (val value)).length = ds.length := by rw [← hds, List.length_map]
    have hloop := digitLoop_eq hd room value [] (List.replicate room 0)
      List.length_replicate hroom
    rw [hds, hlen, List.nil_append, List.nil_append, List.length_nil, Nat.zero_add] at hloop
    have htake : (ds ++ (List.replicate room 0).drop ds.length).take ds.length = ds :=
      List.take_left' rfl
    have hcopy := copyDigits_eq (ds ++ (List.replicate room 0).drop ds.length) ds.length
      (by rw [List.length_append]; omega) ds.length 0 buf (Nat.zero_add _) (by omega)
    rw [htake, List.take_zero, List.nil_append] at hcopy
    rw [if_neg hvalue, if_neg ((hd.eq_zero value).not.1 hvalue), hloop, hds, List.length_reverse]
    show ((List.range ds.length).foldlM (copyDigit _ _) buf >>= fun buf =>
      (pure (buf, ds.length) : Option (List UInt8 × ℕ))) = _
    rw [List.range_eq_range', hcopy]
    rfl

end Loop

/-! ## Strings -/

section Strings

theorem digits_length_u64 (value : UInt64) : (Nat.digits 10 value.toNat).length ≤ 20 := by
  rw [Nat.digits_length_le_iff (by decide)]
  exact value.toNat_lt.trans (by decide)

theorem digits_length_u32 (value : UInt32) : (Nat.digits 8 value.toNat).length ≤ 11 := by
  rw [Nat.digits_length_le_iff (by decide)]
  exact value.toNat_lt.trans (by decide)

theorem length_numeral_le {b n k : ℕ} (h : (Nat.digits b n).length ≤ k) (hk : 0 < k) :
    (numeral b n).length ≤ k := by
  unfold numeral
  split_ifs
  · exact hk
  · rwa [List.length_reverse, List.length_map]

/-- The string that a buffer is the front of. -/
theorem terminated_eq {done room : List UInt8} {len : ℕ} (hlen : len = done.length)
    (hroom : 0 < room.length) : terminated (done ++ room) len =
      pure (done ++ [0], (done ++ [0]) ++ room.drop 1) := by
  have hstore : store (done ++ room) len 0 = some ((done ++ [0]) ++ room.drop 1) :=
    store_divide hlen hroom 0
  have hslice : subslice ((done ++ [0]) ++ room.drop 1) 0 (len + 1) = some (done ++ [0]) :=
    subslice_done (by rw [hlen, List.length_append, List.length_singleton])
  unfold terminated
  rw [hstore, lift_some_bind, hslice]
  rfl

variable (buf : List UInt8)

/-- The buffer behind a string. -/
def behind (text : List UInt8) : List UInt8 := buf.drop (text.length + 1)

variable {buf}

/-- A buffer that begins with a text is long enough for the NUL. -/
theorem terminated_text {text : List UInt8} (hbuf : text.length < buf.length) :
    (if (text ++ buf.drop text.length).length < text.length + 1 then throw ENAMETOOLONG
      else terminated (text ++ buf.drop text.length) text.length) =
        (pure (text ++ [0], text ++ [0] ++ behind buf text) :
          BufStep (List UInt8 × List UInt8)) := by
  have hroom : 0 < (buf.drop text.length).length := by
    rw [List.length_drop]
    omega
  rw [if_neg (by rw [List.length_append]; omega), terminated_eq rfl hroom, List.drop_drop]
  rfl

theorem decimalCstr_eq (value : UInt64) (hbuf : buf.length = 32) : decimalCstr value buf =
    pure (numeral 10 value.toNat ++ [0],
      numeral 10 value.toNat ++ [0] ++ behind buf (numeral 10 value.toNat)) := by
  have hdigits := digits_length_u64 value
  have hlen := length_numeral_le hdigits (by omega)
  have hwrite : decimalDigits value buf = _ :=
    writeDigits_eq digital_decimal hdigits (by omega) (by omega)
  unfold decimalCstr
  rw [hwrite, lift_some_bind]
  exact terminated_text (by omega)

theorem octalCstr_eq (value : UInt32) (hbuf : buf.length = 16) : octalCstr value buf =
    pure (numeral 8 value.toNat ++ [0],
      numeral 8 value.toNat ++ [0] ++ behind buf (numeral 8 value.toNat)) := by
  have hdigits := digits_length_u32 value
  have hlen := length_numeral_le hdigits (by omega)
  have hwrite : octalDigits value buf = _ :=
    writeDigits_eq digital_octal (hdigits.trans (by omega)) (by omega) (by omega)
  unfold octalCstr
  rw [hwrite, lift_some_bind]
  exact terminated_text (by omega)

/-- The name of a staged file. -/
def stagingText (index : UInt64) : List UInt8 := PREFIX ++ numeral 10 index.toNat

theorem stagingNameCstr_eq (index : UInt64) (hbuf : buf.length = 64) :
    stagingNameCstr index buf =
      pure (stagingText index ++ [0],
        stagingText index ++ [0] ++ behind buf (stagingText index)) := by
  have hdigits := digits_length_u64 index
  have hlen := length_numeral_le hdigits (by omega)
  have hprefix : PREFIX.length = 8 := rfl
  have hwrite : decimalDigits index (List.replicate 20 0) = _ :=
    writeDigits_eq digital_decimal hdigits (by rw [List.length_replicate]) (by omega)
  have hcopy :
      copyFromSlice ([] ++ buf) 0 PREFIX = some (([] ++ PREFIX) ++ buf.drop PREFIX.length) :=
    copyFromSlice_divide rfl (by omega)
  have htext : (stagingText index).length = PREFIX.length + (numeral 10 index.toNat).length :=
    List.length_append
  have hname : copyFromSlice (PREFIX ++ buf.drop PREFIX.length) PREFIX.length
      (numeral 10 index.toNat) =
        some (stagingText index ++ buf.drop (stagingText index).length) := by
    rw [copyFromSlice_divide rfl (by rw [List.length_drop]; omega), List.drop_drop, htext]
    rfl
  unfold stagingNameCstr
  rw [← List.nil_append buf, hcopy, lift_some_bind, hwrite, lift_some_bind, List.nil_append]
  dsimp only
  rw [if_neg (by rw [List.length_append, List.length_drop]; omega), subslice_done rfl,
    lift_some_bind, hname, lift_some_bind, ← htext, terminated_eq rfl (by
      rw [List.length_drop]
      omega), List.drop_drop]
  rfl

end Strings

end Pnut.Child.Digits
