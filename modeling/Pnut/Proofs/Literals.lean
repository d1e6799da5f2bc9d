import Pnut.Proofs.Shapes

/-!
# Texts of the atomic rules

Identifiers, operators, quoted names and numbers. `parse_number` gives a literal its value, and
panics exactly when the value does not fit 64 bits.
-/

namespace Pnut.Kafel

open Peg Rule

/-! ## Numbers -/

/-- The value of the digits of `s` in base `radix`, after `acc`. -/
def ofDigits (radix : ℕ) (acc : ℕ) (s : List Char) : ℕ :=
  s.foldl (fun acc c => acc * radix + (toDigit radix c).getD 0) acc

/-- The value of a number literal, however long. -/
def literalValue (s : List Char) : ℕ :=
  match stripPrefix "0x".toList s with
  | some hex => ofDigits 16 0 hex
  | none =>
    match stripPrefix "0o".toList s with
    | some oct => ofDigits 8 0 oct
    | none => ofDigits 10 0 s

section Digits

variable {radix : ℕ}

theorem le_ofDigits (hr : 0 < radix) : ∀ (s : List Char) (acc : ℕ), acc ≤ ofDigits radix acc s
  | [], _ => le_rfl
  | c :: s, acc => by
    have hstep : acc ≤ acc * radix + (toDigit radix c).getD 0 :=
      (Nat.le_mul_of_pos_right acc hr).trans (Nat.le_add_right ..)
    exact hstep.trans (le_ofDigits hr s _)

/-- A value that leaves 64 bits on the way never returns. -/
theorem digits_eq (hr : 0 < radix) : ∀ {s : List Char} {acc : ℕ}, acc < 2 ^ 64 →
    (∀ c ∈ s, (toDigit radix c).isSome = true) →
    digits radix acc s =
      if ofDigits radix acc s < 2 ^ 64 then some (UInt64.ofNat (ofDigits radix acc s)) else none
  | [], acc, hacc, _ => (if_pos hacc).symm
  | c :: s, acc, hacc, hs => by
    simp only [List.mem_cons, forall_eq_or_imp] at hs
    obtain ⟨d, hd⟩ := Option.isSome_iff_exists.1 hs.1
    have hfold : ofDigits radix acc (c :: s) = ofDigits radix (acc * radix + d) s := by
      simp [ofDigits, hd]
    rw [digits, hd, hfold]
    by_cases hlt : acc * radix + d < 2 ^ 64
    · simp only [if_pos hlt]
      exact digits_eq hr hlt hs.2
    · have hle := le_ofDigits hr s (acc * radix + d)
      simp only [if_neg hlt]
      rw [if_neg (by omega)]

theorem fromStrRadix_eq (hr : 0 < radix) {s : List Char} (hne : s ≠ [])
    (hplus : '+' ∉ s) (hs : ∀ c ∈ s, (toDigit radix c).isSome = true) :
    fromStrRadix radix s =
      if ofDigits radix 0 s < 2 ^ 64 then some (UInt64.ofNat (ofDigits radix 0 s)) else none := by
  rw [← digits_eq hr (by decide) hs]
  unfold fromStrRadix
  split
  · exact absurd rfl hne
  · exact absurd (by simp) hplus
  · rfl

end Digits

section Chars

variable {c : Char}

theorem isDigit_iff : c.isDigit = true ↔ 48 ≤ c.toNat ∧ c.toNat ≤ 57 := by
  simp only [Char.isDigit, Bool.and_eq_true, decide_eq_true_eq, ge_iff_le, UInt32.le_iff_toNat_le]
  rfl

theorem isLower_iff : c.isLower = true ↔ 97 ≤ c.toNat ∧ c.toNat ≤ 122 := by
  show (decide (c.val ≥ 'a'.val) && decide (c.val ≤ 'z'.val)) = true ↔ _
  simp only [Bool.and_eq_true, decide_eq_true_eq, ge_iff_le, UInt32.le_iff_toNat_le]
  rfl

theorem isUpper_iff : c.isUpper = true ↔ 65 ≤ c.toNat ∧ c.toNat ≤ 90 := by
  show decide (c.val ≥ 'A'.val ∧ c.val ≤ 'Z'.val) = true ↔ _
  simp only [decide_eq_true_eq, ge_iff_le, UInt32.le_iff_toNat_le]
  rfl

theorem isHexDigit_iff : isHexDigit c = true ↔
    (48 ≤ c.toNat ∧ c.toNat ≤ 57) ∨ (97 ≤ c.toNat ∧ c.toNat ≤ 102) ∨
      (65 ≤ c.toNat ∧ c.toNat ≤ 70) := by
  simp only [isHexDigit, Bool.or_eq_true, isDigit_iff, Bool.and_eq_true, decide_eq_true_eq,
    or_assoc]
  rfl

theorem isOctDigit_iff : isOctDigit c = true ↔ 48 ≤ c.toNat ∧ c.toNat ≤ 55 := by
  simp only [isOctDigit, Bool.and_eq_true, decide_eq_true_eq]
  rfl

theorem toDigit_isSome {radix : ℕ} (h : isHexDigit c = true) (hr : radix = 16 ∨
    (radix = 10 ∧ c.toNat ≤ 57) ∨ (radix = 8 ∧ c.toNat ≤ 55)) :
    (toDigit radix c).isSome = true := by
  rw [isHexDigit_iff] at h
  have h0 : '0'.toNat = 48 := rfl
  have ha : 'a'.toNat = 97 := rfl
  have hA : 'A'.toNat = 65 := rfl
  unfold toDigit
  simp only [isDigit_iff, isLower_iff, isUpper_iff, h0, ha, hA]
  rw [if_pos, Option.isSome_some]
  split_ifs <;> omega

end Chars

/-! ## Texts -/

/-- The texts `e` can match. -/
def Text (e : Exp Rule) (t : List Char) : Prop := ∃ ts, Yields grammar e t ts

section Text

variable {a b : Exp Rule} {t : List Char} {p : Char → Bool}

theorem text_word {s : String} : Text (word s) t ↔ t = s.toList :=
  ⟨fun ⟨_, h⟩ => by cases h; rfl, fun h => ⟨[], h ▸ .lit⟩⟩

theorem text_seq : Text (.seq a b) t ↔ ∃ u v, Text a u ∧ Text b v ∧ t = u ++ v := by
  constructor
  · rintro ⟨_, h⟩
    cases h with
    | seq ha hb => exact ⟨_, _, ⟨_, ha⟩, ⟨_, hb⟩, rfl⟩
  · rintro ⟨u, v, ⟨_, ha⟩, ⟨_, hb⟩, rfl⟩
    exact ⟨_, .seq ha hb⟩

theorem text_alt : Text (.alt a b) t ↔ Text a t ∨ Text b t := by
  constructor
  · rintro ⟨_, h⟩
    cases h with
    | alt_left ha => exact .inl ⟨_, ha⟩
    | alt_right hb => exact .inr ⟨_, hb⟩
  · rintro (⟨_, ha⟩ | ⟨_, hb⟩)
    · exact ⟨_, .alt_left ha⟩
    · exact ⟨_, .alt_right hb⟩

theorem text_chr : Text (.chr p) t ↔ ∃ c, p c = true ∧ t = [c] :=
  ⟨fun ⟨_, h⟩ => by cases h with | chr hp => exact ⟨_, hp, rfl⟩,
    fun ⟨_, hp, ht⟩ => ⟨[], ht ▸ .chr hp⟩⟩

/-- Repeated characters, matched by an expression of one character. -/
theorem text_star (ha : ∀ {t}, Text a t → ∃ c, p c = true ∧ t = [c]) (h : Text (.star a) t) :
    ∀ c ∈ t, p c = true := by
  obtain ⟨_, h⟩ := h
  generalize he : Exp.star a = e at h
  induction h with
  | star_nil => simp
  | star_cons hc _ _ ihs =>
    cases he
    obtain ⟨c, hp, rfl⟩ := ha ⟨_, hc⟩
    simpa [hp] using ihs rfl
  | _ => cases he

theorem text_plus (h : Text (plus (.chr p)) t) : t ≠ [] ∧ ∀ c ∈ t, p c = true := by
  obtain ⟨_, s, hc, hs, rfl⟩ := text_seq.1 h
  obtain ⟨c, hp, rfl⟩ := text_chr.1 hc
  exact ⟨by simp, by simpa [hp] using text_star text_chr.1 hs⟩

end Text

/-- A number literal of the grammar. -/
def IsNumber (t : List Char) : Prop :=
  (∃ s, s ≠ [] ∧ (∀ c ∈ s, isHexDigit c = true) ∧ t = "0x".toList ++ s) ∨
  (∃ s, s ≠ [] ∧ (∀ c ∈ s, isOctDigit c = true) ∧ t = "0o".toList ++ s) ∨
  (t ≠ [] ∧ ∀ c ∈ t, c.isDigit = true)

theorem Is.number {p : Tree} (h : Is .number p) : IsNumber p.text := by
  have htext : Text (Rule.body .number) p.text := ⟨_, h.yields⟩
  rcases text_alt.1 htext with h | h
  · obtain ⟨_, s, hu, hs, heq⟩ := text_seq.1 h
    rw [text_word.1 hu] at heq
    exact .inl ⟨s, (text_plus hs).1, (text_plus hs).2, heq⟩
  rcases text_alt.1 h with h | h
  · obtain ⟨_, s, hu, hs, heq⟩ := text_seq.1 h
    rw [text_word.1 hu] at heq
    exact .inr (.inl ⟨s, (text_plus hs).1, (text_plus hs).2, heq⟩)
  · exact .inr (.inr (text_plus h))

theorem stripPrefix_append (l s : List Char) : stripPrefix l (l ++ s) = some s :=
  stripPrefix_eq_some.2 rfl

/-- A decimal literal has no prefix. -/
theorem stripPrefix_of_isDigit {x : Char} (hx : x.isDigit = false) {s : List Char}
    (hs : ∀ c ∈ s, c.isDigit = true) : stripPrefix ['0', x] s = none := by
  rw [stripPrefix_eq_none]
  rintro ⟨s', rfl⟩
  simp [hx] at hs

theorem parseNumber_eq {t : List Char} (h : IsNumber t) : parseNumber t =
    if literalValue t < 2 ^ 64 then .ok (UInt64.ofNat (literalValue t))
    else panicWith ("numeric literal overflows u64: " ++ String.ofList t) := by
  have hplus {s : List Char} (hs : ∀ c ∈ s, isHexDigit c = true) : '+' ∉ s := fun hmem =>
    absurd (hs _ hmem) (by decide)
  have hx : "0x".toList = ['0', 'x'] := rfl
  have ho : "0o".toList = ['0', 'o'] := rfl
  rcases h with ⟨s, hne, hs, heq⟩ | ⟨s, hne, hs, heq⟩ | ⟨hne, hs⟩
  · rw [parseNumber, literalValue, heq, stripPrefix_append]
    simp only []
    rw [fromStrRadix_eq (by decide) hne (hplus hs)
      fun c hc => toDigit_isSome (hs c hc) (.inl rfl)]
    split_ifs <;> rfl
  · have hhex : ∀ c ∈ s, isHexDigit c = true := fun c hc => by
      have := isOctDigit_iff.1 (hs c hc)
      rw [isHexDigit_iff]
      omega
    have hno : stripPrefix "0x".toList ("0o".toList ++ s) = none := by
      rw [stripPrefix_eq_none, hx, ho]
      simp
    rw [parseNumber, literalValue, heq, hno, stripPrefix_append]
    simp only []
    rw [fromStrRadix_eq (by decide) hne (hplus hhex) fun c hc =>
      toDigit_isSome (hhex c hc) (.inr (.inr ⟨rfl, (isOctDigit_iff.1 (hs c hc)).2⟩))]
    split_ifs <;> rfl
  · have hhex : ∀ c ∈ t, isHexDigit c = true := fun c hc =>
      isHexDigit_iff.2 (.inl (isDigit_iff.1 (hs c hc)))
    rw [parseNumber, literalValue, hx, ho, stripPrefix_of_isDigit (by decide) hs,
      stripPrefix_of_isDigit (by decide) hs]
    simp only []
    rw [fromStrRadix_eq (by decide) hne (hplus hhex) fun c hc =>
      toDigit_isSome (hhex c hc) (.inr (.inl ⟨rfl, (isDigit_iff.1 (hs c hc)).2⟩))]
    split_ifs <;> rfl

/-! ## Names, operators and actions -/

/-- An identifier of the grammar. -/
def IsIdent (s : List Char) : Prop :=
  ∃ c cs, s = c :: cs ∧ (c.isAlpha || c == '_') = true ∧
    ∀ d ∈ cs, (d.isAlphanum || d == '_') = true

theorem Is.ident {p : Tree} (h : Is .ident p) : IsIdent p.text := by
  have hunder {t : List Char} (q : Char → Bool) (h : Text (choice [.chr q, word "_"]) t) :
      ∃ c, (q c || c == '_') = true ∧ t = [c] := by
    rcases text_alt.1 h with h | h
    · obtain ⟨c, hc, rfl⟩ := text_chr.1 h
      exact ⟨c, by simp [hc], rfl⟩
    · exact ⟨'_', by simp, text_word.1 h⟩
  have htext : Text (Rule.body .ident) p.text := ⟨_, h.yields⟩
  obtain ⟨_, cs, hc, hcs, heq⟩ := text_seq.1 htext
  obtain ⟨c, hfirst, rfl⟩ := hunder _ hc
  exact ⟨c, cs, heq, hfirst, text_star (hunder _) hcs⟩

theorem Is.cmpOp {p : Tree} (h : Is .cmpOp p) : ∃ op, parseCmpOp p = .ok op := by
  have htext : Text (Rule.body .cmpOp) p.text := ⟨_, h.yields⟩
  simp only [Rule.body, choice, text_alt, text_word] at htext
  unfold parseCmpOp asStr
  rcases htext with h | h | h | h | h | h <;> rw [h] <;> exact ⟨_, rfl⟩

/-- A quoted name, which is what is left without the quotes. -/
theorem Is.stringLiteral {p : Tree} (h : Is .stringLiteral p) :
    ∃ s, p.text = '"' :: s ++ ['"'] := by
  have htext : Text (Rule.body .stringLiteral) p.text := ⟨_, h.yields⟩
  obtain ⟨_, _, hq, h, heq⟩ := text_seq.1 htext
  obtain ⟨s, _, -, hq', rfl⟩ := text_seq.1 h
  rw [text_word.1 hq, text_word.1 hq'] at heq
  exact ⟨s, by simpa using heq⟩

theorem stripQuotes_eq (s : List Char) :
    stripQuotes ('"' :: s ++ ['"']) = .ok (String.ofList s) := by
  have hsize : '"'.utf8Size = 1 := by decide
  simp [stripQuotes, hsize]

end Pnut.Kafel
