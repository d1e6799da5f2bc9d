import Pnut.Proofs.Literals

/-!
# Reading spaced tokens

Texts whose tokens are separated by single spaces. `Reads e ts rest Q`: in front of the tokens `ts`
and then `rest`, `e` matches just the text of `ts`, and its tree tokens satisfy `Q`. An expression
that matches nothing has already skipped the space in front of `rest`, so what is left may or may
not begin with it.
-/

namespace Pnut.Kafel

open Peg Rule

/-- No white space and no comment starts with this character. -/
def isSolid (c : Char) : Bool := c ∉ [' ', '\t', '\n', '\r', '/']

/-- The text of a token, which skipping leaves alone. -/
structure Token where
  text : List Char
  solid : ∃ c s, text = c :: s ∧ isSolid c = true

/-- A token of the grammar or of the user, `?` if the text is not one. -/
def Token.of (text : List Char) : Token :=
  match text with
  | [] => ⟨['?'], '?', [], rfl, by decide⟩
  | c :: s =>
    if h : isSolid c = true then ⟨c :: s, c, s, rfl, h⟩
    else ⟨['?'], '?', [], rfl, by decide⟩

def tok (s : String) : Token := .of s.toList

theorem Token.of_text {s : List Char} (h : ∃ c t, s = c :: t ∧ isSolid c = true) :
    (Token.of s).text = s := by
  obtain ⟨c, t, rfl, hc⟩ := h
  simp [Token.of, hc]

/-- The tokens that follow one, each after a space. -/
def spaced : List Token → List Char
  | [] => []
  | t :: ts => ' ' :: (t.text ++ spaced ts)

/-- The tokens, separated by spaces. -/
def joined : List Token → List Char
  | [] => []
  | t :: ts => t.text ++ spaced ts

/-- What is left in front of the tokens `ts`, with or without the space. -/
def Left (ts : List Token) (s : List Char) : Prop := s = spaced ts ∨ s = joined ts

/-! ## Skipping -/

section Skip

variable {pos : ℕ} {s : List Char}

theorem word_fails {w : String} (h : ¬ w.toList <+: s) : Derives grammar (word w) pos s none :=
  .lit_fail h

theorem whitespace_fails (h : ∀ c ∈ s.head?, isSolid c = true) :
    Derives grammar (.call whitespace) pos s none := by
  have hword {w : String} {c : Char} (hw : w.toList.head? = some c) (hc : isSolid c = false) :
      Derives grammar (word w) pos s none := by
    refine word_fails ?_
    rintro ⟨s', rfl⟩
    cases hl : w.toList with
    | nil => simp [hl] at hw
    | cons d l =>
      obtain rfl : d = c := by simpa [hl] using hw
      simp [hl, hc] at h
  refine .call_fail ?_
  refine .alt_right (hword (c := ' ') rfl rfl) (.alt_right (hword (c := '\t') rfl rfl) ?_)
  exact .alt_right (hword (c := '\n') rfl rfl) (.alt_right (hword (c := '\r') rfl rfl)
    (hword (c := '\r') rfl rfl))

theorem comment_fails (h : ∀ c ∈ s.head?, isSolid c = true) :
    Derives grammar (.call comment) pos s none := by
  have hword {w : String} (hw : w.toList.head? = some '/') :
      Derives grammar (word w) pos s none := by
    refine word_fails ?_
    rintro ⟨s', rfl⟩
    cases hl : w.toList with
    | nil => simp [hl] at hw
    | cons d l =>
      obtain rfl : d = '/' := by simpa [hl] using hw
      simp [hl, show isSolid '/' = false by decide] at h
  exact .call_fail (.alt_right (.seq_left (hword rfl)) (.seq_left (hword rfl)))

theorem skip_stays (h : ∀ c ∈ s.head?, isSolid c = true) :
    Derives grammar skip pos s (some ⟨[], [], s⟩) := by
  have hblank : Derives grammar (.star (.call whitespace)) pos s (some ⟨[], [], s⟩) :=
    .star_nil (whitespace_fails h)
  exact .seq hblank (.star_nil (.seq_left (comment_fails h)))

theorem skip_space (h : ∀ c ∈ s.head?, isSolid c = true) :
    Derives grammar skip pos (' ' :: s) (some ⟨[], [' '], s⟩) := by
  have hspace : Derives grammar (.call whitespace) pos (' ' :: s) (some ⟨[], [' '], s⟩) :=
    .call (m := ⟨[], [' '], s⟩) (.alt_left (.lit (l := [' ']) (s := s)))
  have hblank : Derives grammar (.star (.call whitespace)) pos (' ' :: s) (some ⟨[], [' '], s⟩) :=
    .star_cons hspace (.star_nil (whitespace_fails h))
  exact .seq hblank (.star_nil (.seq_left (comment_fails h)))

theorem joined_head (ts : List Token) : ∀ c ∈ (joined ts).head?, isSolid c = true := by
  cases ts with
  | nil => simp [joined]
  | cons t ts =>
    obtain ⟨c, s, ht, hc⟩ := t.solid
    simpa [joined, ht] using hc

/-- Skipping comes to the next token. -/
theorem Left.skip {ts : List Token} {s : List Char} (h : Left ts s) (pos : ℕ) :
    ∃ text, Derives grammar skip pos s (some ⟨[], text, joined ts⟩) := by
  rcases h with rfl | rfl
  · cases ts with
    | nil => exact ⟨[], skip_stays (by simp [spaced])⟩
    | cons t ts => exact ⟨[' '], skip_space (joined_head (t :: ts))⟩
  · exact ⟨[], skip_stays (joined_head ts)⟩

end Skip

/-! ## Matching tokens -/

def Reads (e : Exp Rule) (ts rest : List Token) (Q : List Tree → Prop) : Prop :=
  ∀ pos, ∃ toks text s, Left rest s ∧
    Derives grammar e pos (joined (ts ++ rest)) (some ⟨toks, text, s⟩) ∧ Q toks

/-- One token is left, with `G`. -/
def ReadsOne (e : Exp Rule) (ts rest : List Token) (G : Tree → Prop) : Prop :=
  Reads e ts rest fun ps => ∃ p, G p ∧ ps = [p]

def Fails (e : Exp Rule) (ts : List Token) : Prop :=
  ∀ pos, Derives grammar e pos (joined ts) none

section Reads

variable {e e' : Exp Rule} {es : List (Exp Rule)} {ts ts' rest : List Token}
  {Q Q' : List Tree → Prop}

theorem Reads.imp (h : Reads e ts rest Q) (hQ : ∀ ps, Q ps → Q' ps) : Reads e ts rest Q' :=
  fun pos =>
    let ⟨toks, text, s, hs, hd, hq⟩ := h pos
    ⟨toks, text, s, hs, hd, hQ _ hq⟩

theorem ReadsOne.imp {G G' : Tree → Prop} (h : ReadsOne e ts rest G) (hG : ∀ p, G p → G' p) :
    ReadsOne e ts rest G' :=
  Reads.imp h fun _ ⟨p, hp, hps⟩ => ⟨p, hG p hp, hps⟩

theorem reads_empty : Reads .empty [] rest (· = []) :=
  fun _ => ⟨[], [], _, .inr rfl, .empty, rfl⟩

theorem reads_word {w : String} {t : Token} (h : t.text = w.toList) :
    Reads (word w) [t] rest (· = []) :=
  fun _ => ⟨[], _, _, .inl rfl, by rw [List.singleton_append, joined, h]; exact .lit, rfl⟩

theorem Reads.tilde (h : Reads e ts (ts' ++ rest) Q) (h' : Reads (tilde (e' :: es)) ts' rest Q') :
    Reads (tilde (e :: e' :: es)) (ts ++ ts') rest fun ps =>
      ∃ us vs, Q us ∧ Q' vs ∧ ps = us ++ vs := by
  intro pos
  obtain ⟨us, t, s, hs, hd, hq⟩ := h pos
  obtain ⟨t', hskip⟩ := hs.skip (pos + byteLen t)
  obtain ⟨vs, t'', s', hs', hd', hq'⟩ := h' (pos + byteLen t + byteLen t')
  rw [List.append_assoc]
  exact ⟨_, _, s', hs', .seq hd (.seq hskip hd'), us, vs, hq, hq', rfl⟩

/-- A word in front of a sequence. -/
theorem Reads.word {w : String} {t : Token} (ht : t.text = w.toList)
    (h : Reads (Rule.tilde (e' :: es)) ts' rest Q) :
    Reads (Rule.tilde (word w :: e' :: es)) (t :: ts') rest Q :=
  ((reads_word ht).tilde h).imp fun _ ⟨_, _, hus, hvs, hps⟩ => by simpa [hps, hus] using hvs

theorem Reads.call {r : Rule} (hr : grammar.silent r = false) (h : Reads r.body ts rest Q) :
    ReadsOne (.call r) ts rest fun p => ∃ pos text ps, Q ps ∧ p = .mk r pos text ps := by
  intro pos
  obtain ⟨toks, text, s, hs, hd, hq⟩ := h pos
  refine ⟨[.mk r pos text toks], text, s, hs, ?_, _, ⟨pos, text, toks, hq, rfl⟩, rfl⟩
  simpa [Grammar.emit, hr] using Derives.call (G := grammar) hd

theorem Reads.left (h : Reads e ts rest Q) : Reads (.alt e e') ts rest Q := fun pos =>
  let ⟨toks, text, s, hs, hd, hq⟩ := h pos
  ⟨toks, text, s, hs, .alt_left hd, hq⟩

theorem Reads.right (hf : Fails e (ts ++ rest)) (h : Reads e' ts rest Q) :
    Reads (.alt e e') ts rest Q := fun pos =>
  let ⟨toks, text, s, hs, hd, hq⟩ := h pos
  ⟨toks, text, s, hs, .alt_right (hf pos) hd, hq⟩

theorem reads_opt_none (h : Fails e rest) : Reads (opt e) [] rest (· = []) :=
  Reads.right h reads_empty

theorem fails_word {w : String} {t : Token} (hw : ' ' ∉ w.toList) (h : ¬ w.toList <+: t.text) :
    Fails (word w) (t :: ts) := by
  intro pos
  refine .lit_fail fun hpre => ?_
  rcases List.prefix_or_prefix_of_prefix hpre (List.prefix_append t.text (spaced ts)) with
    h' | ⟨u, hu⟩
  · exact h h'
  · rw [joined, ← hu, List.prefix_append_right_inj] at hpre
    cases u with
    | nil => exact h (by rw [← hu, List.append_nil])
    | cons c u =>
      cases ts with
      | nil => simp [spaced] at hpre
      | cons t' ts =>
        obtain rfl : c = ' ' := (List.cons_prefix_cons.1 hpre).1
        exact hw (by simp [← hu])

theorem fails_word_nil {w : String} (hw : w.toList ≠ []) : Fails (word w) [] :=
  fun _ => .lit_fail fun h => hw (List.prefix_nil.1 h)

theorem fails_head (h : Fails e ts) : Fails (tilde (e :: e' :: es)) ts :=
  fun pos => .seq_left (h pos)

theorem fails_tail (h : Reads e ts ts' Q) (hf : Fails (tilde (e' :: es)) ts') :
    Fails (tilde (e :: e' :: es)) (ts ++ ts') := by
  intro pos
  obtain ⟨us, t, s, hs, hd, -⟩ := h pos
  obtain ⟨t', hskip⟩ := hs.skip (pos + byteLen t)
  exact .seq_right hd (.seq_right hskip (hf _))

theorem fails_call {r : Rule} (h : Fails r.body ts) : Fails (.call r) ts :=
  fun pos => .call_fail (h pos)

theorem fails_alt (h : Fails e ts) (h' : Fails e' ts) : Fails (.alt e e') ts :=
  fun pos => .alt_right (h pos) (h' pos)

end Reads

/-! ## Repetitions -/

section Many

variable {α : Type} {e : Exp Rule} {rest : List Token} {toks : α → List Token}
  {G : α → Tree → Prop}

/-- What may follow an item of a repetition: the end, or another item. -/
def Follows (toks : α → List Token) (items : List α) (rest after : List Token) : Prop :=
  after = rest ∨ ∃ x ∈ items, ∃ more, after = toks x ++ more

theorem reads_star : ∀ (items : List α),
    (∀ x ∈ items, ∀ after, Follows toks items rest after → ReadsOne e (toks x) after (G x)) →
    Fails e rest → ∀ pos s, Left (items.flatMap toks ++ rest) s → ∃ ps text s', Left rest s' ∧
      Derives grammar (.star (.seq skip e)) pos s (some ⟨ps, text, s'⟩) ∧
      List.Forall₂ G items ps
  | [], _, hend, pos, s, hs => by
    obtain ⟨t, hskip⟩ := hs.skip pos
    exact ⟨[], [], s, hs, .star_nil (.seq_right hskip (hend _)), .nil⟩
  | x :: xs, hitem, hend, pos, s, hs => by
    obtain ⟨t, hskip⟩ := hs.skip pos
    have hafter : Follows toks (x :: xs) rest (xs.flatMap toks ++ rest) := by
      cases xs with
      | nil => exact .inl rfl
      | cons y ys => exact .inr ⟨y, by simp, ys.flatMap toks ++ rest, by simp⟩
    obtain ⟨us, t', s', hs', hd, p, hp, rfl⟩ := hitem x (by simp) _ hafter (pos + byteLen t)
    obtain ⟨ps, t'', s'', hs'', hd', hps⟩ := reads_star xs
      (fun y hy after hf => hitem y (by simp [hy]) after (hf.imp_right fun ⟨z, hz, h⟩ =>
        ⟨z, by simp [hz], h⟩)) hend (pos + byteLen (t ++ t')) s' hs'
    rw [← List.append_assoc] at hd
    rw [List.flatMap_cons, List.append_assoc] at hskip
    rw [List.append_assoc] at hd
    exact ⟨p :: ps, _, s'', hs'', .star_cons (.seq hskip hd) hd', .cons hp hps⟩

theorem reads_many {items : List α}
    (hitem : ∀ x ∈ items, ∀ after, Follows toks items rest after → ReadsOne e (toks x) after (G x))
    (hend : Fails e rest) :
    Reads (many e) (items.flatMap toks) rest fun ps => List.Forall₂ G items ps := by
  cases items with
  | nil => exact (reads_opt_none (e := .seq e (.star (.seq skip e))) fun pos =>
      .seq_left (hend pos)).imp fun ps h => h ▸ .nil
  | cons x xs =>
    intro pos
    have hafter : Follows toks (x :: xs) rest (xs.flatMap toks ++ rest) := by
      cases xs with
      | nil => exact .inl rfl
      | cons y ys => exact .inr ⟨y, by simp, ys.flatMap toks ++ rest, by simp⟩
    obtain ⟨us, t', s', hs', hd, p, hp, rfl⟩ := hitem x (by simp) _ hafter pos
    obtain ⟨ps, t'', s'', hs'', hd', hps⟩ := reads_star xs
      (fun y hy after hf => hitem y (by simp [hy]) after (hf.imp_right fun ⟨z, hz, h⟩ =>
        ⟨z, by simp [hz], h⟩)) hend (pos + byteLen t') s' hs'
    rw [List.flatMap_cons, List.append_assoc]
    exact ⟨p :: ps, _, s'', hs'', .alt_left (.seq hd hd'), .cons hp hps⟩

end Many

end Pnut.Kafel
