import Pnut.Lib.Peg

/-!
# Text by byte positions

A text is a list of characters, a position a number of bytes. Not every position falls between two
characters: `splitByte` cuts the text at one that does.
-/

namespace Text

open Peg (byteLen)

theorem byteLen_append (s t : List Char) : byteLen (s ++ t) = byteLen s + byteLen t := by
  induction s with
  | nil => simp [byteLen]
  | cons c s ih => rw [List.cons_append, byteLen, byteLen, ih, Nat.add_assoc]

theorem byteLen_eq_zero {s : List Char} : byteLen s = 0 ↔ s = [] := by
  rcases s with _ | ⟨c, s⟩
  · simp [byteLen]
  · have := c.utf8Size_pos
    rw [byteLen]
    simp
    omega

/-- The text before and after a position, where the position falls between characters. -/
def splitByte : List Char → ℕ → Option (List Char × List Char)
  | s, 0 => some ([], s)
  | [], _ + 1 => none
  | c :: s, n + 1 =>
    if c.utf8Size ≤ n + 1 then (splitByte s (n + 1 - c.utf8Size)).map fun (t, u) => (c :: t, u)
    else none

/-- The position falls between two characters, or at an end of the text. -/
def Boundary (s : List Char) (n : ℕ) : Prop := ∃ t u, s = t ++ u ∧ byteLen t = n

theorem Boundary.le {s : List Char} {n : ℕ} (h : Boundary s n) : n ≤ byteLen s := by
  obtain ⟨t, u, rfl, rfl⟩ := h
  rw [byteLen_append]
  exact Nat.le_add_right _ _

theorem splitByte_eq_some : ∀ {s : List Char} {n : ℕ} {t u : List Char},
    splitByte s n = some (t, u) ↔ s = t ++ u ∧ byteLen t = n
  | s, 0, t, u => by
    rw [splitByte, byteLen_eq_zero, Option.some.injEq, Prod.mk.injEq]
    constructor
    · rintro ⟨rfl, rfl⟩
      exact ⟨rfl, rfl⟩
    · rintro ⟨rfl, rfl⟩
      exact ⟨rfl, rfl⟩
  | [], n + 1, t, u => by
    rw [splitByte]
    constructor
    · nofun
    · rintro ⟨h, hlen⟩
      obtain ⟨rfl, rfl⟩ := List.append_eq_nil_iff.1 h.symm
      cases hlen
  | c :: s, n + 1, t, u => by
    rw [splitByte]
    constructor
    · intro h
      split_ifs at h with hc
      obtain ⟨⟨t', u'⟩, hsplit, heq⟩ := Option.map_eq_some_iff.1 h
      obtain ⟨rfl, rfl⟩ := Prod.mk.inj heq
      obtain ⟨rfl, hlen⟩ := splitByte_eq_some.1 hsplit
      refine ⟨rfl, ?_⟩
      rw [byteLen, hlen]
      omega
    · rintro ⟨hs, hlen⟩
      rcases t with _ | ⟨d, t⟩
      · cases hlen
      · obtain ⟨rfl, rfl⟩ := List.cons.inj hs
        rw [byteLen] at hlen
        have hsplit : splitByte (t ++ u) (n + 1 - c.utf8Size) = some (t, u) :=
          splitByte_eq_some.2 ⟨rfl, by omega⟩
        rw [if_pos (by omega)]
        exact congrArg (Option.map _) hsplit

/-- A position cuts a text in one way. -/
theorem append_unique {s t u v : List Char} (h : s ++ t = u ++ v) (hlen : byteLen s = byteLen u) :
    s = u ∧ t = v := by
  have hs : splitByte (s ++ t) (byteLen s) = some (s, t) := splitByte_eq_some.2 ⟨rfl, rfl⟩
  have hu : splitByte (s ++ t) (byteLen s) = some (u, v) := splitByte_eq_some.2 ⟨h, hlen.symm⟩
  exact Prod.mk.inj (Option.some.inj (hs.symm.trans hu))

/-- A position behind a prefix is a position of what follows it. -/
theorem boundary_append {s t : List Char} {n : ℕ} :
    Boundary (s ++ t) (byteLen s + n) ↔ Boundary t n := by
  constructor
  · rintro ⟨u, v, h, hlen⟩
    rcases List.append_eq_append_iff.1 h with ⟨w, rfl, hw⟩ | ⟨w, rfl, hw⟩
    · rw [byteLen_append] at hlen
      exact ⟨w, v, hw, by omega⟩
    · rw [byteLen_append] at hlen
      have hw' : w = [] := byteLen_eq_zero.1 (by omega)
      subst hw'
      exact ⟨[], t, rfl, by simp only [byteLen] at hlen ⊢; omega⟩
  · rintro ⟨u, v, rfl, hlen⟩
    exact ⟨s ++ u, v, by rw [List.append_assoc], by rw [byteLen_append, hlen]⟩

/-! ## Tokens -/

/-- The text of the token stands in a text where the start of the token says. -/
def Placed {R : Type} (q : Peg.Pair R) (s : List Char) : Prop :=
  ∃ t u, s = t ++ (q.text ++ u) ∧ byteLen t = q.start

theorem Placed.boundary_start {R : Type} {q : Peg.Pair R} {s : List Char} (h : Placed q s) :
    Boundary s q.start := by
  obtain ⟨t, u, rfl, hstart⟩ := h
  exact ⟨t, q.text ++ u, rfl, hstart⟩

theorem Placed.boundary_stop {R : Type} {q : Peg.Pair R} {s : List Char} (h : Placed q s) :
    Boundary s (q.start + byteLen q.text) := by
  obtain ⟨t, u, rfl, hstart⟩ := h
  exact ⟨t ++ q.text, u, (List.append_assoc ..).symm, by rw [byteLen_append, hstart]⟩

/-- Every node below a match stands where it says, in the whole text of which the match is a
part. -/
theorem placed_of_derives {R : Type} {G : Peg.Grammar R} {e : Peg.Exp R} {pos : ℕ}
    {s : List Char} {r : Option (Peg.Match R)} (h : Peg.Derives G e pos s r) :
    ∀ before, byteLen before = pos → ∀ m ∈ r, ∀ q ∈ Peg.nodesOf m.toks, Placed q (before ++ s) := by
  -- what stands behind a match is derived from where the match ends
  have hnext {before s : List Char} {m : Peg.Match R} {q : Peg.Pair R} (hs : s = m.text ++ m.rest)
      (hq : Placed q ((before ++ m.text) ++ m.rest)) : Placed q (before ++ s) := by
    rwa [hs, ← List.append_assoc]
  induction h with
  | empty | chr | lit | eoi | star_nil | neg => simp [Peg.nodesOf]
  | chr_fail | lit_fail | eoi_fail | seq_left | seq_right | neg_fail | call_fail => simp
  | seq ha _ iha ihb | star_cons ha _ iha ihb =>
    rintro before rfl _ ⟨⟩ q hq
    rw [Peg.nodesOf_append, List.mem_append] at hq
    rcases hq with hq | hq
    · exact iha before rfl _ rfl q hq
    · exact hnext (ha.append_rest _ rfl) (ihb _ (byteLen_append ..) _ rfl q hq)
  | alt_left _ iha => exact iha
  | alt_right _ _ _ ihb => exact ihb
  | @call r pos s m hr ih =>
    rintro before rfl _ ⟨⟩ q hq
    unfold Peg.Grammar.emit at hq
    split_ifs at hq
    · exact ih before rfl m rfl q hq
    · simp only [Peg.nodesOf, Peg.Pair.nodes, List.append_nil, List.mem_cons] at hq
      rcases hq with rfl | hq
      · exact ⟨before, m.rest, congrArg (before ++ ·) (hr.append_rest m rfl), rfl⟩
      · exact ih before rfl m rfl q hq

end Text
