import Pnut.Proofs.Written

/-!
# Reading names, numbers and values

What the atomic rules and the values of a spelling are read as. `BuildsTo r build strip a` is what a
token of rule `r` must be: built to `a`, up to spans.
-/

namespace Pnut.Kafel

open Peg Rule

section Sequences

variable {e e' : Exp Rule} {es : List (Exp Rule)} {ts ts' rest : List Token} {Q : List Tree → Prop}

/-- A word behind an expression. -/
theorem Reads.closed {w : String} {t : Token} (ht : t.text = w.toList)
    (h : Reads e ts (t :: rest) Q) : Reads (Rule.tilde [e, Rule.word w]) (ts ++ [t]) rest Q := by
  have hword : Reads (Rule.tilde [Rule.word w]) [t] rest (· = []) := reads_word ht
  refine (Reads.tilde h hword).imp ?_
  rintro _ ⟨us, _, hus, rfl, rfl⟩
  rwa [List.append_nil]

/-- A token in front of a sequence. -/
theorem Reads.cons {G : Tree → Prop} (h : ReadsOne e ts (ts' ++ rest) G)
    (h' : Reads (Rule.tilde (e' :: es)) ts' rest Q) :
    Reads (Rule.tilde (e :: e' :: es)) (ts ++ ts') rest fun ps =>
      ∃ p qs, G p ∧ Q qs ∧ ps = p :: qs := by
  refine (Reads.tilde h h').imp ?_
  rintro _ ⟨_, qs, ⟨p, hp, rfl⟩, hqs, rfl⟩
  exact ⟨p, qs, hp, hqs, rfl⟩

end Sequences

/-! ## Atomic rules -/

section Atoms

variable {p : Char → Bool} {e : Exp Rule} {pos : ℕ}

theorem spaced_head (h : p ' ' = false) (ts : List Token) :
    ∀ c ∈ (spaced ts).head?, p c = false := by
  cases ts <;> simp [spaced, h]

/-- A repetition of single characters reads as far as they go. -/
theorem derives_chars (hchr : ∀ c s pos, p c = true → Derives grammar e pos (c :: s)
      (some ⟨[], [c], s⟩))
    (hend : ∀ s pos, (∀ c ∈ s.head?, p c = false) → Derives grammar e pos s none) :
    ∀ (l : List Char) {s : List Char} (pos : ℕ), (∀ c ∈ l, p c = true) →
    (∀ c ∈ s.head?, p c = false) → Derives grammar (.star e) pos (l ++ s) (some ⟨[], l, s⟩)
  | [], _, _, _, hs => .star_nil (hend _ _ hs)
  | c :: l, s, pos, hl, hs => by
    simp only [List.mem_cons, forall_eq_or_imp] at hl
    exact .star_cons (hchr c (l ++ s) pos hl.1) (derives_chars hchr hend l _ hl.2 hs)

theorem derives_plus {l s : List Char} (pos : ℕ) (hne : l ≠ []) (hl : ∀ c ∈ l, p c = true)
    (hs : ∀ c ∈ s.head?, p c = false) :
    Derives grammar (plus (.chr p)) pos (l ++ s) (some ⟨[], l, s⟩) := by
  cases l with
  | nil => exact absurd rfl hne
  | cons c l =>
    simp only [List.mem_cons, forall_eq_or_imp] at hl
    exact .seq (.chr hl.1) (derives_chars (fun _ _ _ h => .chr h) (fun _ _ h => .chr_fail h) l _
      hl.2 hs)

theorem chr_or_underscore (p : Char → Bool) {c : Char} {s : List Char} (pos : ℕ)
    (h : (p c || c == '_') = true) :
    Derives grammar (choice [.chr p, word "_"]) pos (c :: s) (some ⟨[], [c], s⟩) := by
  by_cases hp : p c = true
  · exact .alt_left (.chr hp)
  · obtain rfl : c = '_' := by simpa [hp] using h
    exact .alt_right (.chr_fail (by simpa using hp)) (.lit (l := ['_']))

theorem chr_or_underscore_fails (p : Char → Bool) {s : List Char} (pos : ℕ)
    (h : ∀ c ∈ s.head?, (p c || c == '_') = false) :
    Derives grammar (choice [.chr p, word "_"]) pos s none := by
  simp only [Bool.or_eq_false_iff] at h
  refine .alt_right (.chr_fail fun c hc => (h c hc).1) (.lit_fail ?_)
  rintro ⟨s', rfl⟩
  exact absurd (h '_' rfl).2 (by decide)

/-- Only one token is read, and its text. -/
def LeafOf (r : Rule) (text : List Char) (t : Tree) : Prop := ∃ pos, t = .mk r pos text []

variable {t : Token} {rest : List Token}

theorem leaf_reads {r : Rule} (hr : grammar.silent r = false)
    (h : ∀ pos, Derives grammar r.body pos (t.text ++ spaced rest)
      (some ⟨[], t.text, spaced rest⟩)) :
    ReadsOne (.call r) [t] rest (LeafOf r t.text) := by
  intro pos
  refine ⟨[.mk r pos t.text []], t.text, _, .inl rfl, ?_, _, ⟨pos, rfl⟩, rfl⟩
  have := Derives.call (G := grammar) (h pos)
  rwa [Grammar.emit, hr] at this

theorem ident_reads (h : IsIdent t.text) :
    ReadsOne (.call .ident) [t] rest (LeafOf .ident t.text) := by
  refine leaf_reads rfl fun pos => ?_
  obtain ⟨c, cs, hs, hc, hcs⟩ := h
  rw [hs]
  exact .seq (chr_or_underscore _ pos hc)
    (derives_chars (fun c s pos h => chr_or_underscore _ pos h)
      (fun s pos h => chr_or_underscore_fails _ pos h) cs _ hcs (spaced_head (by decide) rest))

theorem name_reads {name : String} (h : IsIdent name.toList) :
    ReadsOne (.call .ident) [nameTok name] rest (LeafOf .ident name.toList) := by
  rw [← nameTok_text h]
  exact ident_reads (by rwa [nameTok_text h])

theorem number_reads (h : IsNumber t.text) :
    ReadsOne (.call .number) [t] rest (LeafOf .number t.text) := by
  have hspace {p : Char → Bool} (hp : p ' ' = false) := spaced_head hp rest
  refine leaf_reads rfl fun pos => ?_
  rcases h with ⟨s, hne, hs, heq⟩ | ⟨s, hne, hs, heq⟩ | ⟨hne, hs⟩
  · rw [heq, List.append_assoc]
    exact .alt_left (.seq .lit (derives_plus _ hne hs (hspace (by decide))))
  · rw [heq, List.append_assoc]
    refine .alt_right (.seq_left (word_fails ?_))
      (.alt_left (.seq .lit (derives_plus _ hne hs (hspace (by decide)))))
    simp
  · have hword {w : String} {x : Char} (hx : x.isDigit = false) (hw : w.toList = ['0', x])
        (hsp : ' ' ∉ w.toList) : Fails (word w) (t :: rest) := by
      refine fails_word hsp ?_
      rw [hw]
      rintro ⟨s', hs'⟩
      simp [← hs', hx] at hs
    refine .alt_right (.seq_left (hword (x := 'x') rfl rfl (by decide) pos)) (.alt_right
      (.seq_left (hword (x := 'o') rfl rfl (by decide) _)) ?_)
    exact derives_plus _ hne hs (hspace (by decide))

theorem string_reads {s : List Char} (h : NoQuote s) (ht : t.text = '"' :: s ++ ['"']) :
    ReadsOne (.call .stringLiteral) [t] rest (LeafOf .stringLiteral t.text) := by
  have hquote : "\"".toList = ['"'] := rfl
  refine leaf_reads rfl fun pos => ?_
  have hchr (c : Char) (s : List Char) (pos : ℕ) (hc : (c != '"') = true) :
      Derives grammar (atomic [.neg (word "\""), any]) pos (c :: s) (some ⟨[], [c], s⟩) := by
    refine .seq (.neg (.lit_fail ?_)) (.chr rfl)
    rw [hquote]
    rintro ⟨s', hs'⟩
    rw [← (List.cons.inj hs').1] at hc
    simp at hc
  have hend (s : List Char) (pos : ℕ) (hs : ∀ c ∈ s.head?, (c != '"') = false) :
      Derives grammar (atomic [.neg (word "\""), any]) pos s none := by
    rcases s with _ | ⟨c, s⟩
    · exact .seq_right (.neg (.lit_fail (by rw [hquote]; simp))) (.chr_fail (by simp))
    · obtain rfl : c = '"' := by simpa using hs c rfl
      exact .seq_left (.neg_fail (.lit (l := ['"'])))
  have hchars := derives_chars (p := (· != '"')) hchr hend s (s := '"' :: spaced rest) (pos + 1)
    (fun c hc => by simpa using fun hq : c = '"' => h (hq ▸ hc)) (by simp)
  have htext : t.text ++ spaced rest = ['"'] ++ (s ++ (['"'] ++ spaced rest)) := by simp [ht]
  have heq : t.text = ['"'] ++ (s ++ ['"']) := by simp [ht]
  rw [htext, heq]
  exact .seq (.lit (l := ['"'])) (.seq hchars (.lit (l := ['"'])))

theorem fails_chr {p : Char → Bool} (h : ∀ c ∈ t.text.head?, p c = false) :
    Fails (.chr p) (t :: rest) := by
  obtain ⟨c, s, hs, -⟩ := t.solid
  refine fun pos => .chr_fail ?_
  simpa [joined, hs] using h

/-- No word that begins otherwise is there. -/
theorem fails_word_head {w : String} (hw : ' ' ∉ w.toList) {c d : Char}
    (hd : w.toList.head? = some d) (h : t.text.head? = some c) (hne : c ≠ d) :
    Fails (word w) (t :: rest) := by
  refine fails_word hw ?_
  rintro ⟨s, hs⟩
  rw [← hs] at h
  rcases hl : w.toList with _ | ⟨d', l⟩ <;> rw [hl] at hd h
  · simp at hd
  · simp only [List.cons_append, List.head?_cons, Option.some.injEq] at hd h
    exact hne (h.symm.trans hd)

theorem number_fails (h : ∀ c ∈ t.text.head?, c.isDigit = false) :
    Fails (.call .number) (t :: rest) := by
  obtain ⟨c, s, hs, -⟩ := t.solid
  have hc : c.isDigit = false := h c (by simp [hs])
  have hne : c ≠ '0' := by
    rintro rfl
    exact absurd hc (by decide)
  refine fails_call (fails_alt ?_ (fails_alt ?_ ?_))
  · exact fun pos => .seq_left (fails_word_head (by decide) rfl (by simp [hs]) hne pos)
  · exact fun pos => .seq_left (fails_word_head (by decide) rfl (by simp [hs]) hne pos)
  · exact fun pos => .seq_left (fails_chr h pos)

theorem ident_fails (h : ∀ c ∈ t.text.head?, (c.isAlpha || c == '_') = false) :
    Fails (.call .ident) (t :: rest) := by
  obtain ⟨c, s, hs, -⟩ := t.solid
  refine fails_call fun pos => .seq_left (chr_or_underscore_fails _ pos ?_)
  simpa [joined, hs] using h

theorem nameTok_head {name : String} (h : IsIdent name.toList) :
    ∃ c, (nameTok name).text.head? = some c ∧ (c.isAlpha || c == '_') = true := by
  obtain ⟨c, cs, hs, hc, -⟩ := id h
  exact ⟨c, by rw [nameTok_text h, hs]; rfl, hc⟩

theorem number_fails_ident {name : String} (h : IsIdent name.toList) :
    Fails (.call .number) (nameTok name :: rest) := by
  obtain ⟨c, hhead, hc⟩ := nameTok_head h
  refine number_fails ?_
  rw [hhead]
  rintro _ ⟨⟩
  by_cases hunder : c = '_'
  · rw [hunder]
    decide
  · have halpha : c.isAlpha = true := by simpa [hunder] using hc
    have hsplit : c.isAlpha = (c.isUpper || c.isLower) := rfl
    rw [hsplit, Bool.or_eq_true, isUpper_iff, isLower_iff] at halpha
    rw [← Bool.not_eq_true, isDigit_iff]
    omega

/-- A word that cannot begin a name is not there. -/
theorem fails_word_ident {w : String} {d : Char} (hw : ' ' ∉ w.toList)
    (hd : w.toList.head? = some d) (hne : (d.isAlpha || d == '_') = false)
    {name : String} (h : IsIdent name.toList) : Fails (word w) (nameTok name :: rest) := by
  obtain ⟨c, hhead, hc⟩ := nameTok_head h
  refine fails_word_head hw hd hhead ?_
  rintro rfl
  rw [hc] at hne
  cases hne

end Atoms

/-! ## Builders -/

/-- A token of rule `r`, built to `a` up to spans. -/
structure BuildsTo {α : Type} (r : Rule) (build : Tree → Result α) (strip : α → α) (a : α)
    (t : Tree) : Prop where
  rule_eq : t.rule = r
  built : ∃ a', build t = .ok a' ∧ strip a' = strip a

theorem Reads.buildsTo {α : Type} {r : Rule} {build : Tree → Result α} {strip : α → α} {a : α}
    {ts rest : List Token} {Q : List Tree → Prop} (hr : grammar.silent r = false)
    (h : Reads r.body ts rest Q) (hbuild : ∀ pos text ps, Q ps →
      ∃ a', build (.mk r pos text ps) = .ok a' ∧ strip a' = strip a) :
    ReadsOne (.call r) ts rest (BuildsTo r build strip a) :=
  (Reads.call hr h).imp fun _ ⟨pos, text, ps, hps, hp⟩ => ⟨hp ▸ rfl, hp ▸ hbuild pos text ps hps⟩

@[simp] theorem asStr_mk (r : Rule) (pos : ℕ) (text : List Char) (cs : List Tree) :
    asStr (.mk r pos text cs) = String.ofList text := rfl

@[simp] theorem children_mk (r : Rule) (pos : ℕ) (text : List Char) (cs : List Tree) :
    (Pair.mk r pos text cs).children = cs := rfl

theorem LeafOf.asStr_eq {r : Rule} {s : String} {t : Tree} (h : LeafOf r s.toList t) :
    asStr t = s := by
  obtain ⟨pos, rfl⟩ := h
  rw [asStr_mk, String.ofList_toList]

theorem LeafOf.rule_eq {r : Rule} {text : List Char} {t : Tree} (h : LeafOf r text t) :
    t.rule = r := by
  obtain ⟨pos, rfl⟩ := h
  rfl

/-! ## Values -/

section Values

variable {rest : List Token}

/-- What may follow a value. -/
def ExprEnd (rest : List Token) : Prop := Fails (tilde [word "|", .call exprAtom]) rest

theorem parseExprAtoms_of {es : List Ast.Expr} {ps : List Tree}
    (h : List.Forall₂ (BuildsTo .exprAtom parseExprAtom Ast.Expr.strip) es ps) :
    ∃ es', parseExprAtoms ps = .ok es' ∧ Ast.Expr.stripAll es' = Ast.Expr.stripAll es ∧
      es'.length = es.length := by
  induction h with
  | nil => exact ⟨[], rfl, rfl, rfl⟩
  | cons h _ ih =>
    obtain ⟨e', he, hstrip⟩ := h.built
    obtain ⟨es', hes, hstrips, hlen⟩ := ih
    refine ⟨e' :: es', ?_, ?_, by simp [hlen]⟩
    · simp only [parseExprAtoms, he, hes, ok_bind]
      rfl
    · simp only [Ast.Expr.stripAll, hstrip, hstrips]

theorem strip_ofAtoms {es es' : List Ast.Expr} (h : Ast.Expr.stripAll es' = Ast.Expr.stripAll es)
    (hlen : es'.length = es.length) :
    (Ast.Expr.ofAtoms es').strip = (Ast.Expr.ofAtoms es).strip := by
  rcases es with _ | ⟨e, _ | ⟨e₁, es⟩⟩ <;> rcases es' with _ | ⟨e', _ | ⟨e₁', es'⟩⟩ <;>
    simp_all [Ast.Expr.ofAtoms, Ast.Expr.strip, Ast.Expr.stripAll]

theorem parseExpr_ofAtoms {r : Rule} {pos : ℕ} {text : List Char} {ps : List Tree}
    {es : List Ast.Expr} (h : parseExprAtoms ps = .ok es) :
    parseExpr (.mk r pos text ps) = .ok (.ofAtoms es) := by
  rw [parseExpr, h, ok_bind]
  rcases es with _ | ⟨e, _ | ⟨e₁, es⟩⟩ <;> rfl

theorem exprEnd_of_word {ts : List Token} (h : Fails (word "|") ts) : ExprEnd ts := fails_head h

/-- `||` does not go on with a value: after its first half there is no atom. -/
theorem exprEnd_or {ts : List Token} : ExprEnd (tok "||" :: ts) := by
  intro pos
  have hsplit : joined (tok "||" :: ts) = "|".toList ++ ('|' :: spaced ts) := rfl
  have hnext : joined (Token.of ['|'] :: ts) = '|' :: spaced ts := rfl
  have hatom : Fails (.call exprAtom) (Token.of ['|'] :: ts) := by
    refine fails_call (fails_alt (number_fails ?_) (fails_alt (ident_fails ?_) (fails_head ?_)))
    · rintro _ ⟨⟩
      decide
    · rintro _ ⟨⟩
      decide
    · exact fails_word (by decide) (by decide)
  rw [hsplit]
  refine .seq_right .lit (.seq_right (skip_stays ?_) (hnext ▸ hatom _))
  simp [isSolid]

/-- The atom is read whatever comes next, the whole value where it may end. -/
theorem WrittenExpr.reads {place : Place} {e : Ast.Expr} {ts : List Token}
    (h : WrittenExpr place e ts) :
    match place with
    | .atom => ∀ rest, ReadsOne (.call exprAtom) ts rest
        (BuildsTo .exprAtom parseExprAtom Ast.Expr.strip e)
    | .value => ∀ rest, ExprEnd rest → ReadsOne (.call expr) ts rest
        (BuildsTo .expr parseExpr Ast.Expr.strip e) := by
  induction h with
  | @number t n ht hn =>
    intro rest
    have hbody : ReadsOne exprAtom.body [t] rest (LeafOf .number t.text) :=
      Reads.left (number_reads ht)
    refine Reads.buildsTo rfl hbody ?_
    rintro _ _ _ ⟨_, ⟨pos, rfl⟩, rfl⟩
    refine ⟨.number n, ?_, rfl⟩
    simp only [parseExprAtom, Pair.rule, Pair.text, parseNumber_eq ht, hn]
    rw [if_pos (UInt64.toNat_lt _), UInt64.ofNat_toNat]
    rfl
  | @ident name span h =>
    intro rest
    have hbody : ReadsOne exprAtom.body [nameTok name] rest (LeafOf .ident name.toList) :=
      Reads.right (number_fails_ident h) (Reads.left (name_reads h))
    refine Reads.buildsTo rfl hbody ?_
    rintro _ _ _ ⟨q, hq, rfl⟩
    refine ⟨.ident (asStr q) (spanOf q), ?_, ?_⟩
    · simp only [parseExprAtom, hq.rule_eq]
      rfl
    · rw [hq.asStr_eq]
      rfl
  | @paren e ts h ih =>
    intro rest
    have hread := ih (tok ")" :: rest) (exprEnd_of_word (fails_word (by decide) (by decide)))
    have hbody : ReadsOne exprAtom.body (tok "(" :: (ts ++ [tok ")"])) rest
        (BuildsTo .expr parseExpr Ast.Expr.strip e) := by
      refine Reads.right (number_fails ?_) (Reads.right (ident_fails ?_) ?_)
      · rintro _ ⟨⟩
        decide
      · rintro _ ⟨⟩
        decide
      · exact Reads.word rfl (Reads.closed rfl hread)
    refine Reads.buildsTo rfl hbody ?_
    rintro _ _ _ ⟨q, hq, rfl⟩
    obtain ⟨e', he, hstrip⟩ := hq.built
    refine ⟨e', ?_, hstrip⟩
    simp only [parseExprAtom, hq.rule_eq]
    exact he
  | @chain e ts ops h hops ih ihops =>
    intro rest hrest
    have hops' : Reads (many (tilde [word "|", .call exprAtom]))
        (ops.flatMap fun p => tok "|" :: p.2) rest fun ps =>
          List.Forall₂ (fun p => BuildsTo .exprAtom parseExprAtom Ast.Expr.strip p.1) ops ps :=
      reads_many (fun p hp after _ => Reads.word rfl (ihops p hp after)) hrest
    have hbody := @Reads.cons _ _ [] _ _ _ _ _ (ih _) hops'
    refine Reads.buildsTo rfl hbody ?_
    rintro _ _ _ ⟨p, ps, hp, hps, rfl⟩
    obtain ⟨es, hes, hstrip, hlen⟩ := @parseExprAtoms_of (e :: ops.map (·.1)) (p :: ps)
      (.cons hp (List.forall₂_map_left_iff.2 hps))
    exact ⟨_, parseExpr_ofAtoms hes, strip_ofAtoms hstrip hlen⟩

end Values

end Pnut.Kafel
