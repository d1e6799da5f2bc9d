import Pnut.Proofs.Origins

/-!
# What a diagnostic shows

A report is rendered exactly when the ends of the span fall between characters of the text, as far
as its first line goes; it then shows the place of the span's start. The tokens of the main text are
made of its characters, so their spans are always shown. The span of a single position is one byte
long, so a main text rejected at a character of several bytes cannot be shown; and a span of another
text is taken for one of the main text.
-/

namespace Pnut.Kafel

open Peg (byteLen nodesOf)
open Text

/-! ## Lines -/

/-- The characters after the last newline. -/
def lastLine : List Char → List Char
  | [] => []
  | c :: s => if '\n' ∈ s then lastLine s else if c = '\n' then s else c :: s

theorem newline_not_mem_lastLine : ∀ s : List Char, '\n' ∉ lastLine s
  | [] => List.not_mem_nil
  | c :: s => by
    unfold lastLine
    split_ifs with hs hc
    · exact newline_not_mem_lastLine s
    · exact hs
    · intro hmem
      rcases List.mem_cons.1 hmem with h | h
      · exact hc h.symm
      · exact hs h

theorem newline_utf8Size : Char.utf8Size '\n' = 1 := rfl

/-- A text is what comes before its last line, and its last line. -/
theorem lastLine_suffix : ∀ s : List Char, ∃ front, s = front ++ lastLine s ∧
    ((rfindNewline s).map (· + 1)).getD 0 = byteLen front ∧
    ((rfindNewline s).isSome ↔ '\n' ∈ s)
  | [] => ⟨[], rfl, rfl, by simp [rfindNewline]⟩
  | c :: s => by
    obtain ⟨front, hs, hbyte, hsome⟩ := lastLine_suffix s
    unfold lastLine rfindNewline
    rcases hfind : rfindNewline s with _ | i <;> rw [hfind] at hbyte hsome
    · have hnot : '\n' ∉ s := fun h => by simpa using hsome.2 h
      rw [if_neg hnot]
      by_cases hc : c = '\n'
      · subst hc
        exact ⟨['\n'], by simp, by simp [byteLen, newline_utf8Size], by simp⟩
      · refine ⟨[], by simp [hc], by simp [hc, byteLen], ?_⟩
        simp [hc, hnot, Ne.symm hc]
    · have hmem : '\n' ∈ s := hsome.1 rfl
      rw [if_pos hmem]
      refine ⟨c :: front, by rw [List.cons_append, ← hs], ?_, by simp [hmem]⟩
      simp only [Option.map_some, Option.getD_some] at hbyte ⊢
      rw [byteLen, ← hbyte]
      omega

theorem lineColFrom_eq {target : ℕ} {after : List Char} : ∀ (mid : List Char) (idx line col : ℕ),
    idx + byteLen mid = target →
    lineColFrom target idx (line, col) (mid ++ after) =
      (line + mid.count '\n',
        if '\n' ∈ mid then (lastLine mid).length + 1 else col + mid.length)
  | [], idx, line, col, h => by
    simp only [byteLen, Nat.add_zero] at h
    rcases after with _ | ⟨c, s⟩
    · simp [lineColFrom]
    · simp [lineColFrom, h]
  | c :: mid, idx, line, col, h => by
    have hpos := c.utf8Size_pos
    rw [byteLen] at h
    rw [List.cons_append, lineColFrom, if_neg (by omega)]
    by_cases hc : c = '\n'
    · rw [if_pos hc, lineColFrom_eq mid _ _ _ (by omega), hc, List.count_cons_self, lastLine]
      by_cases hmem : '\n' ∈ mid
      · simp [hmem]
        omega
      · simp [hmem]
        omega
    · rw [if_neg hc, lineColFrom_eq mid _ _ _ (by omega), List.count_cons_of_ne hc, lastLine]
      by_cases hmem : '\n' ∈ mid
      · simp [hmem]
      · simp [hmem, Ne.symm hc]
        omega

theorem lastLine_of_not_mem : ∀ {s : List Char}, '\n' ∉ s → lastLine s = s
  | [], _ => rfl
  | c :: s, h => by
    rw [List.mem_cons, not_or] at h
    unfold lastLine
    rw [if_neg h.2, if_neg (Ne.symm h.1)]

/-- Line and column of the character behind a prefix. -/
theorem lineCol_eq (before after : List Char) :
    lineCol (before ++ after) (byteLen before) =
      (before.count '\n' + 1, (lastLine before).length + 1) := by
  unfold lineCol
  rw [Nat.min_eq_left (by rw [byteLen_append]; omega),
    lineColFrom_eq before 0 1 1 (Nat.zero_add _), Nat.add_comm 1]
  by_cases hmem : '\n' ∈ before
  · rw [if_pos hmem]
  · rw [if_neg hmem, lastLine_of_not_mem hmem, Nat.add_comm 1]

/-- The rest of a line. -/
def restOfLine (s : List Char) : List Char := s.takeWhile (· ≠ '\n')

theorem findNewline_eq : ∀ s : List Char,
    (findNewline s).getD (byteLen s) = byteLen (restOfLine s)
  | [] => rfl
  | c :: s => by
    have ih := findNewline_eq s
    unfold restOfLine at ih ⊢
    rw [findNewline]
    by_cases hc : c = '\n'
    · simp [hc, byteLen]
    · rw [if_neg hc, List.takeWhile_cons_of_pos (by simpa using hc), byteLen, byteLen, ← ih]
      cases findNewline s <;> rfl

theorem restOfLine_append {s : List Char} (h : '\n' ∉ s) (t : List Char) :
    restOfLine (s ++ t) = s ++ restOfLine t := by
  unfold restOfLine
  rw [List.takeWhile_append_of_pos]
  intro c hc
  exact decide_eq_true fun heq => h (heq ▸ hc)

theorem restOfLine_prefix (s : List Char) : ∃ t, s = restOfLine s ++ t :=
  ⟨s.dropWhile (· ≠ '\n'), List.takeWhile_append_dropWhile.symm⟩

/-! ## Slices -/

theorem slice_append (s t u : List Char) :
    slice (s ++ (t ++ u)) (byteLen s) (byteLen s + byteLen t) = .ok t := by
  have hfront : splitByte (s ++ (t ++ u)) (byteLen s + byteLen t) = some (s ++ t, u) :=
    splitByte_eq_some.2 ⟨(List.append_assoc ..).symm, byteLen_append s t⟩
  have hmid : splitByte (s ++ t) (byteLen s) = some (s, t) := splitByte_eq_some.2 ⟨rfl, rfl⟩
  unfold slice
  rw [hfront]
  dsimp only
  rw [hmid]

theorem slice_isOk {source : List Char} {a b : ℕ} {t : List Char} (h : slice source a b = .ok t) :
    Boundary source a ∧ Boundary source b := by
  unfold slice at h
  rcases hb : splitByte source b with _ | ⟨front, u⟩
  · rw [hb] at h
    cases h
  · rw [hb] at h
    dsimp only at h
    rcases ha : splitByte front a with _ | ⟨s, mid⟩
    · rw [ha] at h
      cases h
    · obtain ⟨rfl, hlen⟩ := splitByte_eq_some.1 hb
      obtain ⟨rfl, halen⟩ := splitByte_eq_some.1 ha
      exact ⟨⟨s, mid ++ u, List.append_assoc .., halen⟩, ⟨s ++ mid, u, rfl, hlen⟩⟩

/-! ## Reports -/

/-- Where the span of an error starts in a text. -/
def spanStart (source : List Char) (span : Span) : ℕ := min span.start.toNat (byteLen source)

/-- How many bytes of the text from there on it covers. -/
def spanBytes (source : List Char) (span : Span) : ℕ :=
  min span.stop.toNat (byteLen source) - spanStart source span

/-- The span starts between two characters of the text, and covers whole characters of it, or all
of the line it starts on. -/
def Renderable (source : List Char) (span : Span) : Prop :=
  ∃ before after, source = before ++ after ∧ byteLen before = spanStart source span ∧
    (byteLen (restOfLine after) ≤ spanBytes source span ∨ Boundary after (spanBytes source span))

/-- The report shows the place of the character at the start of the span; its carets stay within
the line, or are one at its end. -/
structure PointsAt (source : List Char) (span : Span) (s : Snippet) : Prop where
  place : ∃ before after, source = before ++ after ∧ byteLen before = spanStart source span ∧
    s.line = before.count '\n' + 1 ∧ s.col = (lastLine before).length + 1 ∧
    s.lineText = lastLine before ++ restOfLine after
  carets : s.col - 1 + s.carets ≤ s.lineText.length ∨
    (s.carets = 1 ∧ s.col = s.lineText.length + 1)

section Snippet

variable {source : List Char} {span : Span}

/-- The snippet of a span that starts between two characters. -/
theorem snippet_eq {before after : List Char} (h : source = before ++ after)
    (hlen : byteLen before = spanStart source span) :
    snippet source span = (do
      let marked ← slice source (byteLen before)
        (byteLen before + min (spanBytes source span) (byteLen (restOfLine after)))
      pure ⟨before.count '\n' + 1, (lastLine before).length + 1,
        lastLine before ++ restOfLine after, max marked.length 1⟩) := by
  obtain ⟨front, hbefore, hbyte, -⟩ := lastLine_suffix before
  obtain ⟨tail, htail⟩ := restOfLine_prefix after
  have hsum : byteLen before = byteLen front + byteLen (lastLine before) := by
    conv_lhs => rw [hbefore]
    exact byteLen_append ..
  have hstart : lineStartByte source (byteLen before) = .ok (byteLen front) := by
    have hslice := slice_append [] before after
    rw [List.nil_append, ← h, byteLen, Nat.zero_add] at hslice
    unfold lineStartByte
    rw [hslice]
    exact congrArg Except.ok hbyte
  have hrest : sliceFrom source (byteLen front) = .ok (lastLine before ++ after) := by
    have hslice := slice_append front (lastLine before ++ after) []
    rw [List.append_nil, ← List.append_assoc, ← hbefore, ← h] at hslice
    unfold sliceFrom
    rw [← hslice, h, byteLen_append, byteLen_append, hsum, Nat.add_assoc]
  have hend : ((findNewline (lastLine before ++ after)).map (byteLen front + ·)).getD
      (byteLen source) = byteLen before + byteLen (restOfLine after) := by
    have hfind := findNewline_eq (lastLine before ++ after)
    rw [restOfLine_append (newline_not_mem_lastLine before), byteLen_append,
      byteLen_append] at hfind
    rcases hi : findNewline (lastLine before ++ after) with _ | i <;> rw [hi] at hfind
    · simp only [Option.getD_none, Option.map_none] at hfind ⊢
      rw [h, byteLen_append]
      omega
    · simp only [Option.getD_some, Option.map_some] at hfind ⊢
      omega
  have hline : slice source (byteLen front) (byteLen before + byteLen (restOfLine after)) =
      .ok (lastLine before ++ restOfLine after) := by
    have hslice := slice_append front (lastLine before ++ restOfLine after) tail
    rw [List.append_assoc, ← htail, ← List.append_assoc, ← hbefore, ← h, byteLen_append,
      ← Nat.add_assoc, ← hsum] at hslice
    exact hslice
  have hcol : lineCol source (byteLen before) =
      (before.count '\n' + 1, (lastLine before).length + 1) := by
    rw [h]
    exact lineCol_eq before after
  have hspan : min span.start.toNat (byteLen source) = byteLen before := hlen.symm
  have hmarked : min (max (min span.stop.toNat (byteLen source)) (byteLen before))
      (byteLen before + byteLen (restOfLine after)) - byteLen before =
        min (spanBytes source span) (byteLen (restOfLine after)) := by
    unfold spanBytes
    omega
  unfold snippet
  simp only [hspan, hcol, hstart, hrest, hend, hline, hmarked, ok_bind]

/-- A snippet is made exactly of a renderable span. -/
theorem snippet_isOk_iff : (∃ s, snippet source span = .ok s) ↔ Renderable source span := by
  constructor
  · rintro ⟨s, hs⟩
    have hbound : Boundary source (spanStart source span) := by
      unfold snippet lineStartByte at hs
      simp only [Kafel.bind_eq_ok] at hs
      obtain ⟨-, ⟨front, hfront, -⟩, -⟩ := hs
      exact (slice_isOk hfront).2
    obtain ⟨before, after, rfl, hlen⟩ := hbound
    rw [snippet_eq rfl hlen, Kafel.bind_eq_ok] at hs
    obtain ⟨marked, hmarked, -⟩ := hs
    refine ⟨before, after, rfl, hlen, ?_⟩
    rcases Nat.le_total (byteLen (restOfLine after)) (spanBytes (before ++ after) span) with h | h
    · exact .inl h
    · have hend := (slice_isOk hmarked).2
      rw [Nat.min_eq_left h, boundary_append] at hend
      exact .inr hend
  · rintro ⟨before, after, rfl, hlen, hcover⟩
    rw [snippet_eq rfl hlen]
    obtain ⟨tail, htail⟩ := restOfLine_prefix after
    have hbound : Boundary after (min (spanBytes (before ++ after) span)
        (byteLen (restOfLine after))) := by
      have hline : Boundary after (byteLen (restOfLine after)) := ⟨_, tail, htail, rfl⟩
      rcases Nat.le_total (byteLen (restOfLine after)) (spanBytes (before ++ after) span) with h | h
      · rwa [Nat.min_eq_right h]
      · rw [Nat.min_eq_left h]
        rcases hcover with hcover | hcover
        · rwa [Nat.le_antisymm h hcover]
        · exact hcover
    obtain ⟨marked, rest, hsplit, hmarked⟩ := hbound
    have hslice := slice_append before marked rest
    rw [← hsplit, hmarked] at hslice
    rw [hslice]
    exact ⟨_, rfl⟩

/-- The characters a span marks are some of its first line. -/
theorem marked_length_le {before after marked : List Char} {n : ℕ}
    (h : slice (before ++ after) (byteLen before)
      (byteLen before + min n (byteLen (restOfLine after))) = .ok marked) :
    marked.length ≤ (restOfLine after).length := by
  obtain ⟨t, u, rfl, ht⟩ := boundary_append.1 (slice_isOk h).2
  have hslice := slice_append before t u
  rw [ht, h] at hslice
  obtain rfl := Except.ok.inj hslice
  obtain ⟨tail, htail⟩ := restOfLine_prefix (marked ++ u)
  have hprefix : marked <+: restOfLine (marked ++ u) := by
    rcases List.append_eq_append_iff.1 htail with ⟨w, hw, -⟩ | ⟨w, hw, -⟩
    · exact ⟨w, hw.symm⟩
    · have hlen := congrArg byteLen hw
      rw [byteLen_append] at hlen
      obtain rfl : w = [] := byteLen_eq_zero.1 (by omega)
      rw [List.append_nil] at hw
      rw [← hw]
  exact hprefix.length_le

theorem pointsAt_of_ok {s : Snippet} (h : snippet source span = .ok s) :
    PointsAt source span s := by
  obtain ⟨before, after, rfl, hlen, -⟩ := snippet_isOk_iff.1 ⟨s, h⟩
  rw [snippet_eq rfl hlen, Kafel.bind_eq_ok] at h
  obtain ⟨marked, hmarked, hs⟩ := h
  obtain rfl := Except.ok.inj hs
  refine ⟨⟨before, after, rfl, hlen, rfl, rfl, rfl⟩, ?_⟩
  have hmarked' : marked.length ≤ (restOfLine after).length := marked_length_le hmarked
  dsimp only
  rw [List.length_append]
  rcases hline : restOfLine after with _ | ⟨c, line⟩
  · right
    rw [hline] at hmarked'
    rw [List.length_nil] at hmarked'
    exact ⟨by omega, rfl⟩
  · left
    rw [hline] at hmarked'
    simp only [List.length_cons] at hmarked' ⊢
    omega

end Snippet

/-- The error is rendered, and its snippet points at the start of the span. -/
def Diagnosed (err : Error) (source : List Char) (filename : Option String) : Prop :=
  ∃ out, renderDiagnostic err source filename = .ok out ∧ ∀ span, err.span = some span →
    ∃ s, PointsAt source span s ∧ out = s!"error: {err.display}\n" ++ s.format filename

variable {err : Error} {source : List Char} {filename : Option String}

theorem diagnosed_iff :
    Diagnosed err source filename ↔ ∀ span, err.span = some span → Renderable source span := by
  unfold Diagnosed renderDiagnostic
  rcases hspan : err.span with _ | span
  · exact ⟨fun _ => nofun, fun _ => ⟨_, rfl, nofun⟩⟩
  · simp only [Option.some.injEq, forall_eq', ← snippet_isOk_iff, Kafel.bind_eq_ok]
    constructor
    · rintro ⟨out, ⟨s, hs, -⟩, -⟩
      exact ⟨s, hs⟩
    · rintro ⟨s, hs⟩
      exact ⟨_, ⟨s, hs, rfl⟩, s, pointsAt_of_ok hs, rfl⟩

/-! ## Spans of the main text, and others -/

/-- From the one offset to the other, as far as there are bytes, the text has whole characters, or
all that is left of a line. -/
def Covers (source : List Char) (s e : ℕ) : Prop :=
  byteLen source ≤ s ∨ ∃ before after, source = before ++ after ∧ byteLen before = s ∧
    (byteLen (restOfLine after) ≤ e - s ∨ Boundary after (e - s))

/-- When the span of an error is shown in the main text. At a position where the main text was
rejected there is no character, or one of one byte; a token of the main text always is; a range of
another text is, when it covers whole characters of the main text. -/
def Origin.Shown (source : List Char) : Origin → Prop
  | .rejected text (.pos p) =>
    if text = source ∧ p + 1 < 2 ^ 32 then
      ∀ before c after, source = before ++ c :: after → byteLen before = p → c.utf8Size = 1
    else Covers source (p % 2 ^ 32) ((p + 1) % 2 ^ 32)
  | .rejected text (.span s e) =>
    text = source ∧ e < 2 ^ 32 ∨ Covers source (s % 2 ^ 32) (e % 2 ^ 32)
  | .token text node =>
    text = source ∧ node.start + byteLen node.text < 2 ^ 32 ∨
      Covers source (node.start % 2 ^ 32) ((node.start + byteLen node.text) % 2 ^ 32)
  | .resolver span => Covers source span.start.toNat span.stop.toNat

/-- The parser's positions fall between characters. -/
def InputLocation.Within (text : List Char) : InputLocation → Prop
  | .pos p => Boundary text p
  | .span s e => s ≤ e ∧ Boundary text s ∧ Boundary text e

def Pest.Located (pest : Pest) : Prop :=
  ∀ text err, pest text = .error err → err.location.Within text

section Covers

theorem restOfLine_length_le (s : List Char) : byteLen (restOfLine s) ≤ byteLen s := by
  obtain ⟨t, ht⟩ := restOfLine_prefix s
  have hlen := congrArg byteLen ht
  rw [byteLen_append] at hlen
  omega

theorem renderable_iff {source : List Char} {span : Span} :
    Renderable source span ↔ Covers source span.start.toNat span.stop.toNat := by
  unfold Renderable Covers spanBytes spanStart
  generalize span.start.toNat = s
  generalize span.stop.toNat = e
  rcases Nat.le_total (byteLen source) s with hs | hs
  · refine iff_of_true ⟨source, [], by simp, by omega, .inl ?_⟩ (.inl hs)
    simp [restOfLine, byteLen]
  rw [Nat.min_eq_left hs]
  constructor
  · rintro ⟨before, after, rfl, rfl, hcover⟩
    refine .inr ⟨before, after, rfl, rfl, ?_⟩
    have hrest := restOfLine_length_le after
    rw [byteLen_append] at hcover
    rcases Nat.le_total e (byteLen before + byteLen after) with he | he
    · rwa [Nat.min_eq_left he] at hcover
    · exact .inl (by omega)
  · rintro (hlen | ⟨before, after, rfl, rfl, hcover⟩)
    · refine ⟨source, [], by simp, by omega, .inl ?_⟩
      simp [restOfLine, byteLen]
    · refine ⟨before, after, rfl, rfl, ?_⟩
      have hrest := restOfLine_length_le after
      rw [byteLen_append]
      rcases Nat.le_total e (byteLen before + byteLen after) with he | he
      · rwa [Nat.min_eq_left he]
      · exact .inl (by omega)

theorem covers_of_boundary {source : List Char} {s e : ℕ} (hs : Boundary source s)
    (he : Boundary source e) (hse : s ≤ e) : Covers source s e := by
  obtain ⟨before, after, rfl, rfl⟩ := hs
  refine .inr ⟨before, after, rfl, rfl, .inr ?_⟩
  rwa [← Nat.add_sub_cancel' hse, boundary_append] at he

/-- One byte covers the character at its start exactly when that is one byte long. -/
theorem covers_byte {source : List Char} {p : ℕ} (hp : Boundary source p) :
    Covers source p (p + 1) ↔
      ∀ before c after, source = before ++ c :: after → byteLen before = p → c.utf8Size = 1 := by
  unfold Covers
  rw [Nat.add_sub_cancel_left]
  constructor
  · rintro hcover before c after rfl rfl
    have hpos := c.utf8Size_pos
    rcases hcover with hlen | ⟨front, back, hsplit, hfront, hcover⟩
    · rw [byteLen_append, byteLen] at hlen
      omega
    obtain ⟨rfl, rfl⟩ := append_unique hsplit hfront.symm
    rcases hcover with hcover | ⟨t, u, ht, htlen⟩
    · by_cases hc : c = '\n'
      · rw [hc]
        rfl
      · unfold restOfLine at hcover
        rw [List.takeWhile_cons_of_pos (by simpa using hc), byteLen] at hcover
        omega
    · rcases t with _ | ⟨d, t⟩
      · cases htlen
      · obtain ⟨rfl, rfl⟩ := List.cons.inj ht
        rw [byteLen] at htlen
        omega
  · intro hsize
    obtain ⟨before, after, rfl, rfl⟩ := hp
    rcases after with _ | ⟨c, s⟩
    · exact .inl (by simp)
    · refine .inr ⟨before, c :: s, rfl, rfl, .inr ⟨[c], s, rfl, ?_⟩⟩
      simp only [byteLen, hsize before c s rfl rfl]

end Covers

section Origins

variable {b : Build} {pest : Pest} {options : CompileOptions}

/-- The tokens of a text stand in it. -/
theorem placed_of_tokens (hpest : pest.Faithful) {text : List Char} {tokens : List Tree}
    (h : pest text = .ok tokens) : ∀ q ∈ nodesOf tokens, Placed q text := by
  obtain ⟨t, rest, hderives⟩ := (hpest text tokens).1 h
  exact placed_of_derives hderives [] rfl _ rfl

/-- A span is rendered when its origin says so. -/
theorem Origin.Of.renderable_iff_shown (hpest : pest.Faithful) (hlocated : pest.Located)
    {origin : Origin} (h : origin.Of b pest source options) :
    Renderable source origin.span ↔ origin.Shown source := by
  rw [renderable_iff]
  cases h with
  | @rejected parent text perr _ herr =>
    have hwithin := hlocated text perr herr
    rcases perr with ⟨message, p | ⟨s, e⟩⟩
    · have hstop : (UInt32.ofNat p + 1).toNat = (p + 1) % 2 ^ 32 := by
        rw [UInt32.toNat_add, UInt32.toNat_ofNat']
        exact Nat.mod_add_mod p (2 ^ 32) 1
      simp only [Origin.span, Origin.Shown, UInt32.toNat_ofNat', hstop]
      split_ifs with hmain
      · obtain ⟨rfl, hp⟩ := hmain
        rw [Nat.mod_eq_of_lt (by omega), Nat.mod_eq_of_lt hp]
        exact covers_byte hwithin
      · exact Iff.rfl
    · simp only [Origin.span, Origin.Shown, UInt32.toNat_ofNat']
      refine ⟨.inr, ?_⟩
      rintro (⟨rfl, he⟩ | hcover)
      · obtain ⟨hse, hs, he'⟩ := hwithin
        rw [Nat.mod_eq_of_lt (by omega), Nat.mod_eq_of_lt he]
        exact covers_of_boundary hs he' hse
      · exact hcover
  | @token parent text tokens node _ htokens hnode =>
    simp only [Origin.span, Origin.Shown, spanOf, UInt32.toNat_ofNat']
    refine ⟨.inr, ?_⟩
    rintro (⟨rfl, hstop⟩ | hcover)
    · have hplaced := placed_of_tokens hpest htokens node hnode
      rw [Nat.mod_eq_of_lt (by omega), Nat.mod_eq_of_lt hstop]
      exact covers_of_boundary hplaced.boundary_start hplaced.boundary_stop (by omega)
    · exact hcover
  | resolver => exact Iff.rfl

/-- Every error that `parse_policy` returns has no span and is rendered, or its span has an origin:
a token of a text that was read, the place where one was rejected, or an error of the include
resolver; and it is rendered, at the place of its span's start, exactly when the origin is shown. -/
theorem renderDiagnostic_iff (hpest : pest.Faithful) (hlocated : pest.Located)
    (h : parsePolicy b pest source options = errWith err) (filename : Option String) :
    (err.span = none → Diagnosed err source filename) ∧
      (∀ span, err.span = some span →
        ∃ origin : Origin, origin.Of b pest source options ∧ origin.span = span) ∧
      ∀ origin : Origin, origin.Of b pest source options → err.span = some origin.span →
        (Diagnosed err source filename ↔ origin.Shown source) := by
  refine ⟨fun hnone => ?_, fun span => parsePolicy_originates h, fun origin horigin hspan => ?_⟩
  · rw [diagnosed_iff, hnone]
    exact nofun
  · rw [diagnosed_iff, hspan, ← horigin.renderable_iff_shown hpest hlocated]
    exact ⟨fun h => h _ rfl, fun h _ heq => Option.some.inj heq ▸ h⟩

end Origins

theorem silentError_located : (Pest.interpreter silentError).Located := by
  intro text err h
  unfold Pest.interpreter at h
  split at h
  · cases h
  · obtain rfl := Except.error.inj h
    exact ⟨[], text, rfl, rfl⟩

/-- A policy that is not there, behind a comment with a character of two bytes. -/
def missingText : List Char := "// é\nUSE p DEFAULT KILL".toList

def missingError : Error := .undefinedPolicy "p" (some ⟨10, 11⟩)

theorem parsePolicy_missingText :
    parsePolicy .debug (Pest.interpreter silentError) missingText {} = errWith missingError := by
  have hrun : (parsePolicy .debug (Pest.interpreter silentError) missingText {}).map
      (fun _ => ()) = errWith missingError := by decide +kernel
  rcases h : parsePolicy .debug (Pest.interpreter silentError) missingText {} with e | policy
  · rw [h] at hrun
    exact congrArg Except.error (Except.error.inj hrun)
  · rw [h] at hrun
    cases hrun

/-- Its error is that of a token, and is shown. -/
theorem missingText_diagnosed : Diagnosed missingError missingText none := by
  have haccepts : (Pest.interpreter silentError missingText).isOk = true := by decide +kernel
  obtain ⟨-, hsome, hshown⟩ := renderDiagnostic_iff (Pest.interpreter_faithful _)
    silentError_located parsePolicy_missingText none
  obtain ⟨origin, horigin, hspan⟩ := hsome _ rfl
  refine (hshown origin horigin (congrArg some hspan.symm)).2 ?_
  cases horigin with
  | rejected hread herr =>
    cases hread with
    | main => simp [herr, Except.isOk, Except.toBool] at haccepts
    | prelude hprelude => cases hprelude
    | included _ _ _ hresolver => cases hresolver
  | @token _ text tokens node hread htokens hnode =>
    cases hread with
    | main =>
      have hplaced := placed_of_tokens (Pest.interpreter_faithful _) htokens node hnode
      exact .inl ⟨rfl, hplaced.boundary_stop.le.trans_lt (by decide)⟩
    | prelude hprelude => cases hprelude
    | included _ _ _ hresolver => cases hresolver
  | resolver _ _ _ hresolver => cases hresolver

/-- The error of a main text that the grammar rejects at a position of the text. -/
theorem parsePolicy_of_reject (b : Build) {pest : Pest} (options : CompileOptions)
    {message : String} {p : ℕ} (hreject : pest source = .error ⟨message, .pos p⟩)
    (hp : p + 1 < 2 ^ 32) :
    ∃ stop : UInt32, stop.toNat = p + 1 ∧ parsePolicy b pest source options =
      errWith (.parse message (some ⟨UInt32.ofNat p, stop⟩)) := by
  have hofNat : (UInt32.ofNat p).toNat = p := UInt32.toNat_ofNat_of_lt' (by rw [UInt32.size]; omega)
  have hone : (1 : UInt32).toNat = 1 := rfl
  refine ⟨UInt32.ofNat p + 1, ?_, ?_⟩
  · rw [UInt32.toNat_add, hofNat, hone, Nat.mod_eq_of_lt hp]
  · have hadd : addU32 b (UInt32.ofNat p) 1 = .ok (UInt32.ofNat p + 1) := by
      unfold addU32
      rw [hofNat, hone, if_neg]
      simp
      omega
    have hspan : pestToParseError b ⟨message, .pos p⟩ =
        .ok (.parse message (some ⟨UInt32.ofNat p, UInt32.ofNat p + 1⟩)) := by
      unfold pestToParseError
      dsimp only
      rw [hadd]
      rfl
    have htext : Parser.parseText b pest source =
        errWith (.parse message (some ⟨UInt32.ofNat p, UInt32.ofNat p + 1⟩)) := by
      unfold Parser.parseText Parser.parsePolicy
      rw [hreject]
      show (do errWith (← pestToParseError b ⟨message, .pos p⟩)) = _
      rw [hspan]
      rfl
    unfold parsePolicy mergedFile
    rcases options.maxIncludeDepth with _ | left <;>
      rw [Parser.parseWithIncludes, htext] <;> rfl

/-- A text of one character of two bytes is rejected, and the report panics. -/
theorem accented_not_diagnosed :
    ∃ err, parsePolicy .debug (Pest.interpreter silentError) ['é'] {} = errWith err ∧
      renderDiagnostic err ['é'] none = panicWith "byte index is not a char boundary" ∧
      ¬ Diagnosed err ['é'] none := by
  have hnone : ranked.parse .file ['é'] = none :=
    Option.isNone_iff_eq_none.1 (by decide +kernel)
  have hreject : Pest.interpreter silentError ['é'] = .error ⟨"", .pos 0⟩ := by
    unfold Pest.interpreter
    rw [hnone]
    rfl
  obtain ⟨stop, hstop, herr⟩ := parsePolicy_of_reject .debug {} hreject
    (by decide)
  obtain rfl : stop = 1 := UInt32.toNat_inj.1 hstop
  have hpanic : renderDiagnostic (.parse "" (some ⟨UInt32.ofNat 0, 1⟩)) ['é'] none =
      panicWith "byte index is not a char boundary" := by
    unfold renderDiagnostic
    rfl
  refine ⟨_, herr, hpanic, ?_⟩
  rintro ⟨out, hout, -⟩
  rw [hpanic] at hout
  cases hout

end Pnut.Kafel
