import Pnut.Proofs.Scanned

/-!
# The round trip

A spelled file is parsed and built to the file itself, up to spans. The induction goes over the
spelling: for each rule, the alternatives that are tried first fail on the tokens, and what comes
next ends every repetition.
-/

namespace Pnut.Kafel

open Peg Rule

/-! ## Keywords -/

/-- Of the words of a choice the first that is there is read. -/
theorem derives_word {t : Token} {rest : List Token} {w : String} {post : List (Exp Rule)} :
    ∀ (pre : List String), t.text = w.toList →
    (∀ w' ∈ pre, ' ' ∉ w'.toList ∧ ¬ w'.toList <+: t.text) → ∀ pos,
    Derives grammar (choice (pre.map word ++ word w :: post)) pos (t.text ++ spaced rest)
      (some ⟨[], t.text, spaced rest⟩)
  | [], ht, _, pos => by
    rw [ht]
    rcases post with _ | ⟨e, post⟩
    · exact .lit
    · exact .alt_left .lit
  | w' :: pre, ht, hpre, pos => by
    rw [List.forall_mem_cons] at hpre
    have hfails : Derives grammar (word w') pos (t.text ++ spaced rest) none :=
      fails_word hpre.1.1 hpre.1.2 pos
    have hrest := @derives_word t rest w post pre ht hpre.2 pos
    rcases pre with _ | ⟨w'', pre⟩
    · exact .alt_right hfails hrest
    · exact .alt_right hfails hrest

/-! ## Filters -/

section Filters

variable {rest : List Token}

namespace Level

def rule : Level → Rule
  | bool => .boolExpr | or => .orExpr | and => .andExpr | not => .notExpr | primary => .primaryExpr

def build : Level → Tree → Result Ast.BoolExpr
  | bool => parseBoolExpr | or => parseOrExpr | and => parseAndExpr | not => parseNotExpr
  | primary => parsePrimaryExpr

theorem silent_rule (level : Level) : grammar.silent level.rule = false := by cases level <;> rfl

end Level

namespace Op

/-- The operator and one more operand. -/
def more (op : Op) : Exp Rule := tilde [word op.sep, .call op.operand.rule]

/-- What the operands after the first are built to. -/
def exprs : Op → Ast.BoolExpr → List Tree → Result Ast.BoolExpr
  | comma => orExprs | or => andExprs | and => notExprs

theorem body_rule (op : Op) :
    op.level.rule.body = tilde [.call op.operand.rule, many op.more] := by cases op <;> rfl

theorem build_level (op : Op) (r : Rule) (pos : ℕ) (text : List Char) (p : Tree) (ps : List Tree) :
    op.level.build (.mk r pos text (p :: ps)) = op.operand.build p >>= fun e => op.exprs e ps := by
  cases op
  · exact parseBoolExpr.eq_2 r pos text p ps
  · exact parseOrExpr.eq_2 r pos text p ps
  · exact parseAndExpr.eq_2 r pos text p ps

theorem exprs_nil (op : Op) (e : Ast.BoolExpr) : op.exprs e [] = .ok e := by
  cases op
  · exact orExprs.eq_1 ..
  · exact andExprs.eq_1 ..
  · exact notExprs.eq_1 ..

theorem exprs_cons (op : Op) (e : Ast.BoolExpr) (p : Tree) (ps : List Tree) :
    op.exprs e (p :: ps) = op.operand.build p >>= fun e' => op.exprs (op.join e e') ps := by
  cases op
  · exact orExprs.eq_2 ..
  · exact andExprs.eq_2 ..
  · exact notExprs.eq_2 ..

theorem strip_join (op : Op) (a b : Ast.BoolExpr) :
    (op.join a b).strip = op.join a.strip b.strip := by cases op <;> rfl

end Op

/-- A token that is read as the filter at its level. -/
abbrev FilterOf (level : Level) (e : Ast.BoolExpr) : Tree → Prop :=
  BuildsTo level.rule level.build Ast.BoolExpr.strip e

/-- The operands of a chain associate to the left. -/
theorem exprs_foldl (op : Op) : ∀ {ops : List (Ast.BoolExpr × List Token)} {ps : List Tree},
    List.Forall₂ (fun p => FilterOf op.operand p.1) ops ps → ∀ {a a' : Ast.BoolExpr},
    a'.strip = a.strip → ∃ e, op.exprs a' ps = .ok e ∧
      e.strip = (ops.foldl (fun a p => op.join a p.1) a).strip
  | [], [], _, _, a', ha => ⟨a', op.exprs_nil a', ha⟩
  | x :: ops, p :: ps, .cons h hs, a, a', ha => by
    obtain ⟨b, hb, hstrip⟩ := h.built
    have hjoin : (op.join a' b).strip = (op.join a x.1).strip := by
      rw [op.strip_join, op.strip_join, ha, hstrip]
    obtain ⟨e, he, heq⟩ := exprs_foldl op hs hjoin
    refine ⟨e, ?_, heq⟩
    rw [op.exprs_cons, hb, ok_bind, he]

/-- What may follow a filter at each level: nothing that goes on with it. -/
def Ends : Level → List Token → Prop
  | .primary, ts | .not, ts => ExprEnd ts
  | .and, ts => ExprEnd ts ∧ Fails Op.and.more ts
  | .or, ts => ExprEnd ts ∧ Fails Op.and.more ts ∧ Fails Op.or.more ts
  | .bool, ts =>
    ExprEnd ts ∧ Fails Op.and.more ts ∧ Fails Op.or.more ts ∧ Fails Op.comma.more ts

theorem Ends.operand {op : Op} (h : Ends op.level rest) : Ends op.operand rest := by
  cases op
  · exact ⟨h.1, h.2.1, h.2.2.1⟩
  · exact ⟨h.1, h.2.1⟩
  · exact h.1

theorem Ends.more {op : Op} (h : Ends op.level rest) : Fails op.more rest := by
  cases op
  · exact h.2.2.2
  · exact h.2.2
  · exact h.2

/-- An operator ends what is bound more tightly. -/
theorem ends_sep (op : Op) : Ends op.operand (tok op.sep :: rest) := by
  have hmore (op' : Op) (h : ¬ op'.sep.toList <+: (tok op.sep).text) :
      Fails op'.more (tok op.sep :: rest) :=
    fails_head (fails_word (by cases op' <;> decide) h)
  cases op
  · exact ⟨exprEnd_of_word (fails_word (by decide) (by decide)), hmore .and (by decide),
      hmore .or (by decide)⟩
  · exact ⟨exprEnd_or, hmore .and (by decide)⟩
  · exact exprEnd_of_word (fails_word (by decide) (by decide))

/-- A bracket ends every filter. -/
theorem ends_bracket {t : Token} (h : t.text = [')'] ∨ t.text = ['\x7d']) (level : Level) :
    Ends level (t :: rest) := by
  have hend : ExprEnd (t :: rest) := by
    refine exprEnd_of_word (fails_word (by decide) ?_)
    rcases h with h | h <;> rw [h] <;> decide
  have hmore (op : Op) : Fails op.more (t :: rest) := by
    refine fails_head (fails_word (by cases op <;> decide) ?_)
    rcases h with h | h <;> rw [h] <;> cases op <;> decide
  cases level
  · exact ⟨hend, hmore _, hmore _, hmore _⟩
  · exact ⟨hend, hmore _, hmore _⟩
  · exact ⟨hend, hmore _⟩
  · exact hend
  · exact hend

/-! ### Comparisons -/

theorem cmpOp_reads (op : CmpOp) : ReadsOne (.call .cmpOp) [tok op.text] rest
    (LeafOf .cmpOp op.text.toList) := by
  have htext : (tok op.text).text = op.text.toList := by cases op <;> rfl
  rw [← htext]
  refine leaf_reads rfl fun pos => ?_
  cases op
  · exact derives_word [] rfl (by decide) pos
  · exact derives_word ["=="] rfl (by decide) pos
  · exact derives_word ["==", "!=", "<=", ">="] rfl (by decide) pos
  · exact derives_word ["==", "!="] rfl (by decide) pos
  · exact derives_word ["==", "!=", "<=", ">=", "<"] rfl (by decide) pos
  · exact derives_word ["==", "!=", "<="] rfl (by decide) pos

theorem parseCmpOp_of {op : CmpOp} {t : Tree} (h : LeafOf .cmpOp op.text.toList t) :
    parseCmpOp t = .ok op := by
  unfold parseCmpOp
  rw [h.asStr_eq]
  cases op <;> rfl

theorem WrittenLhs.reads {lhs : Ast.CmpLhs} {ts : List Token} (h : WrittenLhs lhs ts)
    (rest : List Token) :
    ReadsOne (.call .cmpLhs) ts rest (BuildsTo .cmpLhs parseCmpLhs Ast.CmpLhs.strip lhs) := by
  rcases h with @⟨name, span, h⟩ | @⟨name, span, mask, ts, h, hmask⟩
  · have hmasked : Fails (.call .maskedExpr) ([nameTok name] ++ rest) :=
      fails_call (fails_head (fails_word_ident (by decide) rfl (by decide) h))
    refine Reads.buildsTo rfl (Reads.right hmasked (name_reads h)) ?_
    rintro _ _ _ ⟨q, hq, rfl⟩
    refine ⟨.arg (asStr q) (spanOf q), ?_, ?_⟩
    · simp only [parseCmpLhs, Pair.children, next, ok_bind, hq.rule_eq]
      rfl
    · rw [hq.asStr_eq]
      rfl
  · have hend : ExprEnd (tok ")" :: rest) := exprEnd_of_word (fails_word (by decide) (by decide))
    have hvalue := hmask.reads (tok ")" :: rest) hend
    have hname : ReadsOne (.call .ident) [nameTok name]
        (tok "&" :: (ts ++ [tok ")"]) ++ rest) (LeafOf .ident name.toList) := name_reads h
    have hparts := Reads.word (t := tok "(") (w := "(") rfl (Reads.cons hname
      (Reads.word (t := tok "&") (w := "&") rfl (Reads.closed (w := ")") rfl hvalue)))
    refine Reads.buildsTo rfl (Reads.left (Reads.call rfl hparts)) ?_
    rintro _ _ _ ⟨_, ⟨pos, text, _, ⟨q, _, hq, ⟨m, hm, rfl⟩, rfl⟩, rfl⟩, rfl⟩
    obtain ⟨mask', hbuilt, hstrip⟩ := hm.built
    refine ⟨.masked (asStr q) (spanOf q) mask', ?_, ?_⟩
    · simp only [parseCmpLhs, Pair.children, next, Pair.rule, ok_bind, hbuilt]
      rfl
    · simp only [Ast.CmpLhs.strip, hstrip, hq.asStr_eq]

/-- A name or a mask is not in front of an operator. -/
theorem WrittenLhs.boolExpr_fails {lhs : Ast.CmpLhs} {ts : List Token} (h : WrittenLhs lhs ts) :
    Fails (tilde [word "(", .call .boolExpr, word ")"]) (ts ++ rest) := by
  rcases h with @⟨name, span, h⟩ | @⟨name, span, mask, ts, h, hmask⟩
  · exact fails_head (fails_word_ident (by decide) rfl (by decide) h)
  · -- Inside the parenthesis the mask's `&` is no comparison.
    have hname {us : List Token} {w : String} {d : Char} (hw : ' ' ∉ w.toList)
        (hd : w.toList.head? = some d) (hne : (d.isAlpha || d == '_') = false) :
        Fails (word w) (nameTok name :: us) := fails_word_ident hw hd hne h
    have hop {us : List Token} : Fails (.call .cmpOp) (tok "&" :: us) := by
      refine fails_call (fails_alt ?_ (fails_alt ?_ (fails_alt ?_ (fails_alt ?_
        (fails_alt ?_ ?_)))))
      all_goals exact fails_word (by decide) (by decide)
    have hcompare {us : List Token} :
        Fails (.call .comparison) (nameTok name :: tok "&" :: us) := by
      have hlhs := (@WrittenLhs.arg _ span h).reads (tok "&" :: us)
      exact fails_call (fails_tail hlhs (fails_head hop))
    have hprimary {us : List Token} :
        Fails (.call .primaryExpr) (nameTok name :: tok "&" :: us) :=
      fails_call (fails_alt (fails_head (hname (by decide) rfl (by decide))) hcompare)
    have hnot {us : List Token} : Fails (.call .notExpr) (nameTok name :: tok "&" :: us) :=
      fails_call (fails_alt (fails_head (hname (by decide) rfl (by decide))) hprimary)
    have hbool {us : List Token} : Fails (.call .boolExpr) (nameTok name :: tok "&" :: us) :=
      fails_call (fails_head (fails_call (fails_head (fails_call (fails_head hnot)))))
    have hopen : Reads (word "(") [tok "("] (nameTok name :: tok "&" :: (ts ++ [tok ")"]) ++ rest)
        (· = []) := reads_word rfl
    exact @fails_tail _ _ _ [tok "("] _ _ hopen (fails_head hbool)

theorem WrittenBool.not_fails {e : Ast.BoolExpr} {ts : List Token}
    (h : WrittenBool .primary e ts) : Fails (word "!") (ts ++ rest) := by
  generalize hlevel : Level.primary = level at h
  rcases h with ⟨op⟩ | - | - | - | @⟨lhs, op, rhs, ls, rs, hl, -⟩
  · cases op <;> cases hlevel
  · cases hlevel
  · cases hlevel
  · exact fails_word (by decide) (by decide)
  · rcases hl with h | h
    · exact fails_word_ident (by decide) rfl (by decide) h
    · exact fails_word (by decide) (by decide)

theorem comparison_reads {lhs : Ast.CmpLhs} {op : CmpOp} {rhs : Ast.Expr} {ls rs : List Token}
    (hl : WrittenLhs lhs ls) (hr : WrittenExpr .value rhs rs) (hend : ExprEnd rest) :
    ReadsOne (.call .comparison) (ls ++ tok op.text :: rs) rest
      (BuildsTo .comparison parseComparison Ast.BoolExpr.strip (.compare lhs op rhs)) := by
  have hvalue : ReadsOne (.call .cmpRhs) rs rest _ := Reads.call rfl (hr.reads rest hend)
  have hop : ReadsOne (.call .cmpOp) [tok op.text] (rs ++ rest) _ := cmpOp_reads op
  have hbody := Reads.cons (hl.reads (tok op.text :: rs ++ rest))
    (@Reads.cons _ _ [] _ _ _ _ _ hop hvalue)
  refine Reads.buildsTo rfl hbody ?_
  rintro pos text _ ⟨l, _, hl, ⟨o, _, ho, ⟨_, ⟨pos', text', _, ⟨v, hv, rfl⟩, rfl⟩, rfl⟩, rfl⟩, rfl⟩
  obtain ⟨lhs', hlhs, hlstrip⟩ := hl.built
  obtain ⟨rhs', hrhs, hrstrip⟩ := hv.built
  refine ⟨.compare lhs' op rhs', ?_, ?_⟩
  · simp only [parseComparison, Pair.children, next, ok_bind, hlhs, parseCmpOp_of ho, hrhs]
    rfl
  · simp only [Ast.BoolExpr.strip, hlstrip, hrstrip]

/-! ### Connectives -/

theorem WrittenBool.reads {level : Level} {e : Ast.BoolExpr} {ts : List Token}
    (h : WrittenBool level e ts) :
    ∀ rest, Ends level rest → ReadsOne (.call level.rule) ts rest (FilterOf level e) := by
  induction h with
  | @chain op e ts ops h hops ih ihops =>
    intro rest hrest
    have hafter {after : List Token}
        (h : Follows (fun p : Ast.BoolExpr × List Token => tok op.sep :: p.2) ops rest after) :
        Ends op.operand after := by
      rcases h with rfl | ⟨p, -, us, rfl⟩
      · exact hrest.operand
      · exact ends_sep op
    have hops' : Reads (many op.more) (ops.flatMap fun p => tok op.sep :: p.2) rest
        fun ps => List.Forall₂ (fun p => FilterOf op.operand p.1) ops ps := by
      refine reads_many (fun p hp after hf => ?_) hrest.more
      exact Reads.word (by cases op <;> rfl) (ihops p hp after (hafter hf))
    have hfirst : ReadsOne (.call op.operand.rule) ts
        ((ops.flatMap fun p => tok op.sep :: p.2) ++ rest) (FilterOf op.operand e) := by
      refine ih _ ?_
      rcases ops with _ | ⟨p, ops⟩
      · exact hrest.operand
      · exact ends_sep op
    have hbody := @Reads.cons _ _ [] _ _ _ _ _ hfirst hops'
    refine Reads.buildsTo (Level.silent_rule op.level) (by rw [op.body_rule]; exact hbody) ?_
    rintro pos text _ ⟨p, ps, hp, hps, rfl⟩
    obtain ⟨e', he, hstrip⟩ := hp.built
    rw [op.build_level, he, ok_bind]
    exact exprs_foldl op hps hstrip
  | @not e ts h ih =>
    intro rest hrest
    refine Reads.buildsTo rfl (Reads.left (Reads.word (w := "!") rfl (ih rest hrest))) ?_
    rintro pos text _ ⟨p, hp, rfl⟩
    obtain ⟨e', he, hstrip⟩ := hp.built
    refine ⟨.not e', ?_, ?_⟩
    · show parseNotExpr _ = _
      rw [parseNotExpr, hp.rule_eq]
      show (do pure (Ast.BoolExpr.not (← parseNotExpr p))) = _
      rw [show parseNotExpr p = .ok e' from he]
      rfl
    · simp only [Ast.BoolExpr.strip, hstrip]
  | @primary e ts h ih =>
    intro rest hrest
    refine Reads.buildsTo rfl (Reads.right (fails_head h.not_fails) (ih rest hrest)) ?_
    rintro pos text _ ⟨p, hp, rfl⟩
    obtain ⟨e', he, hstrip⟩ := hp.built
    refine ⟨e', ?_, hstrip⟩
    show parseNotExpr _ = _
    rw [parseNotExpr, hp.rule_eq]
    exact he
  | @paren e ts h ih =>
    intro rest hrest
    have hinner := ih (tok ")" :: rest) (ends_bracket (.inl rfl) .bool)
    refine Reads.buildsTo rfl (Reads.left (Reads.word (w := "(") rfl
      (Reads.closed (w := ")") rfl hinner))) ?_
    rintro pos text _ ⟨p, hp, rfl⟩
    obtain ⟨e', he, hstrip⟩ := hp.built
    refine ⟨e', ?_, hstrip⟩
    show parsePrimaryExpr _ = _
    rw [parsePrimaryExpr, hp.rule_eq]
    exact he
  | @compare lhs op rhs ls rs hl hr =>
    intro rest hrest
    have hfails : Fails (tilde [word "(", .call .boolExpr, word ")"])
        (ls ++ tok op.text :: rs ++ rest) := by
      rw [List.append_assoc]
      exact hl.boolExpr_fails
    refine Reads.buildsTo rfl (Reads.right hfails (comparison_reads hl hr hrest)) ?_
    rintro pos text _ ⟨p, hp, rfl⟩
    obtain ⟨e', he, hstrip⟩ := hp.built
    refine ⟨e', ?_, hstrip⟩
    show parsePrimaryExpr _ = _
    rw [parsePrimaryExpr, hp.rule_eq]
    exact he

end Filters

/-! ## Actions -/

section Actions

variable {rest : List Token}

theorem keyword_reads {w : String} {post : List (Exp Rule)} {action : Ast.Action}
    (pre : List String) (hbody : Rule.action.body = choice (pre.map word ++ word w :: post))
    (hw : (tok w).text = w.toList)
    (hpre : ∀ w' ∈ pre, ' ' ∉ w'.toList ∧ ¬ w'.toList <+: (tok w).text)
    (hbuild : ∀ pos, parseAction (.mk .action pos w.toList []) = .ok action) :
    ReadsOne (.call .action) [tok w] rest
      (BuildsTo .action parseAction Ast.Action.strip action) := by
  refine ReadsOne.imp (leaf_reads rfl fun pos => ?_) ?_
  · rw [hbody]
    exact derives_word pre hw hpre pos
  · rintro _ ⟨pos, rfl⟩
    exact ⟨rfl, action, hw ▸ hbuild pos, rfl⟩

/-- An action with a value, behind the alternatives before its own. -/
theorem valued_reads {r : Rule} {w : String} {value : Ast.Expr} {ts : List Token}
    {f : Ast.Expr → Ast.Action} (hr : grammar.silent r = false)
    (hbody : r.body = tilde [word w, word "(", .call .expr, word ")"])
    (hw : (tok w).text = w.toList) (h : WrittenExpr .value value ts)
    (hstrip : ∀ e : Ast.Expr, (f e).strip = f e.strip)
    (hbuild : ∀ pos text inner, inner.rule = r → parseAction (.mk .action pos text [inner]) =
      next inner.children >>= fun p => parseExpr p.1 >>= fun e => .ok (f e))
    (hread : ∀ {Q}, Reads (.call r) (tok w :: tok "(" :: (ts ++ [tok ")"])) rest Q →
      Reads Rule.action.body (tok w :: tok "(" :: (ts ++ [tok ")"])) rest Q) :
    ReadsOne (.call .action) (tok w :: tok "(" :: (ts ++ [tok ")"])) rest
      (BuildsTo .action parseAction Ast.Action.strip (f value)) := by
  have hend : ExprEnd (tok ")" :: rest) := exprEnd_of_word (fails_word (by decide) (by decide))
  have hvalue := Reads.word hw (Reads.word (t := tok "(") (w := "(") rfl
    (Reads.closed (w := ")") rfl (h.reads (tok ")" :: rest) hend)))
  rw [← hbody] at hvalue
  refine Reads.buildsTo rfl (hread (Reads.call hr hvalue)) ?_
  rintro pos text _ ⟨_, ⟨pos', text', _, ⟨p, hp, rfl⟩, rfl⟩, rfl⟩
  obtain ⟨e, he, hestrip⟩ := hp.built
  refine ⟨f e, ?_, ?_⟩
  · rw [hbuild _ _ _ rfl]
    simp only [Pair.children, next, ok_bind, he]
  · rw [hstrip, hstrip, hestrip]

def keywords : List String := ["ALLOW", "KILL_PROCESS", "KILL", "LOG", "USER_NOTIF"]

/-- What is not a keyword is left to the alternatives behind them. -/
theorem Reads.pastKeywords {w : String} {ts : List Token} {e : Exp Rule} {Q : List Tree → Prop}
    (hw : ∀ w' ∈ keywords, ' ' ∉ w'.toList ∧ ¬ w'.toList <+: (tok w).text)
    (h : Reads e (tok w :: ts) rest Q) :
    Reads (keywords.foldr (fun w e => .alt (Rule.word w) e) e) (tok w :: ts) rest Q := by
  have hfails {w' : String} (hmem : w' ∈ keywords) : Fails (Rule.word w') (tok w :: ts ++ rest) :=
    fails_word (hw w' hmem).1 (hw w' hmem).2
  refine Reads.right (hfails (by decide)) (Reads.right (hfails (by decide)) ?_)
  refine Reads.right (hfails (by decide)) (Reads.right (hfails (by decide)) ?_)
  exact Reads.right (hfails (by decide)) h

theorem WrittenAction.reads {action : Ast.Action} {ts : List Token} (h : WrittenAction action ts)
    (rest : List Token) :
    ReadsOne (.call .action) ts rest (BuildsTo .action parseAction Ast.Action.strip action) := by
  have hother {r : Rule} {w w' : String} {us : List Token}
      (hbody : r.body = tilde [word w, word "(", .call .expr, word ")"]) (hw : ' ' ∉ w.toList)
      (h : ¬ w.toList <+: (tok w').text) : Fails (.call r) (tok w' :: us) := by
    refine fails_call ?_
    rw [hbody]
    exact fails_head (fails_word hw h)
  cases h with
  | allow => exact keyword_reads [] rfl rfl (by decide) fun _ => by rfl
  | killProcess => exact keyword_reads ["ALLOW"] rfl rfl (by decide) fun _ => by rfl
  | kill => exact keyword_reads ["ALLOW", "KILL_PROCESS"] rfl rfl (by decide) fun _ => by rfl
  | log => exact keyword_reads ["ALLOW", "KILL_PROCESS", "KILL"] rfl rfl (by decide) fun _ => by rfl
  | userNotif =>
    exact keyword_reads ["ALLOW", "KILL_PROCESS", "KILL", "LOG"] rfl rfl (by decide) fun _ => by rfl
  | errno h =>
    refine valued_reads (r := .errnoAction) (f := .errno) rfl rfl rfl h (fun _ => rfl) ?_ ?_
    · intro pos text inner hr
      simp only [parseAction, Pair.children, hr]
      rfl
    · intro Q h
      exact Reads.pastKeywords (by decide) (Reads.left h)
  | trap h =>
    refine valued_reads (r := .trapAction) (f := .trap) rfl rfl rfl h (fun _ => rfl) ?_ ?_
    · intro pos text inner hr
      simp only [parseAction, Pair.children, hr]
      rfl
    · intro Q h
      refine Reads.pastKeywords (by decide) (Reads.right ?_ (Reads.left h))
      exact hother (r := .errnoAction) (w := "ERRNO") rfl (by decide) (by decide)
  | trace h =>
    refine valued_reads (r := .traceAction) (f := .trace) rfl rfl rfl h (fun _ => rfl) ?_ ?_
    · intro pos text inner hr
      simp only [parseAction, Pair.children, hr]
      rfl
    · intro Q h
      refine Reads.pastKeywords (by decide) (Reads.right ?_ (Reads.right ?_ h))
      · exact hother (r := .errnoAction) (w := "ERRNO") rfl (by decide) (by decide)
      · exact hother (r := .trapAction) (w := "TRAP") rfl (by decide) (by decide)

end Actions

/-! ## Rules -/

section Rules

variable {rest : List Token}

/-- `, name` for each name. -/
theorem moreNames_reads {names : List String} (h : ∀ name ∈ names, IsIdent name.toList)
    (rest : List Token) (hrest : Fails (word ",") rest) :
    Reads (many (tilde [word ",", .call .ident])) (moreNames names) rest fun ps =>
      List.Forall₂ (fun name : String => LeafOf .ident name.toList) names ps :=
  @reads_many _ _ _ (fun name => [tok ",", nameTok name]) _ _
    (fun name hname _ _ => Reads.word rfl (name_reads (h name hname))) (fails_head hrest)

theorem map_asStr {names : List String} {ps : List Tree}
    (h : List.Forall₂ (fun name : String => LeafOf .ident name.toList) names ps) :
    ps.map asStr = names := by
  induction h with
  | nil => rfl
  | cons h _ ih => rw [List.map_cons, h.asStr_eq, ih]

/-- The names in parentheses, if there are any, and nothing otherwise. -/
theorem argTokens_reads {args : List String} (h : ∀ arg ∈ args, IsIdent arg.toList)
    (hrest : Fails (word "(") rest) :
    Reads (opt (.call .argDecl)) (argTokens args) rest fun ps =>
      (args = [] ∧ ps = []) ∨ ∃ p, p.rule = .argDecl ∧ p.children.map asStr = args ∧ ps = [p] := by
  rcases args with _ | ⟨arg, args⟩
  · have hnone : Fails (.call .argDecl) rest := fails_call (r := .argDecl) (fails_head hrest)
    exact (reads_opt_none hnone).imp fun ps hps => .inl ⟨rfl, hps⟩
  · rw [List.forall_mem_cons] at h
    have hmore := moreNames_reads h.2 (tok ")" :: rest) (fails_word (by decide) (by decide))
    have hname : ReadsOne (.call .ident) [nameTok arg] (moreNames args ++ [tok ")"] ++ rest) _ :=
      name_reads h.1
    have hbody := Reads.word (t := tok "(") (w := "(") rfl (Reads.cons hname
      (Reads.closed (w := ")") rfl hmore))
    refine (Reads.left (Reads.call (r := .argDecl) rfl hbody)).imp ?_
    rintro _ ⟨_, ⟨pos, text, _, ⟨p, ps, hp, hps, rfl⟩, rfl⟩, rfl⟩
    refine .inr ⟨_, rfl, ?_, rfl⟩
    rw [Pair.children, List.map_cons, hp.asStr_eq, map_asStr hps]

/-- What follows a rule without a filter. -/
theorem filter_reads {filter : Option Ast.BoolExpr} {ts : List Token} (h : WrittenFilter filter ts)
    (hrest : Fails (word "\x7b") rest) :
    Reads (opt (.call .filterBlock)) ts rest fun ps => (filter = none ∧ ps = []) ∨
      ∃ f p q, filter = some f ∧ p.rule = .filterBlock ∧ p.children = [q] ∧ FilterOf .bool f q ∧
        ps = [p] := by
  rcases h with - | @⟨f, ts, hf⟩
  · have hnone : Fails (.call .filterBlock) rest :=
      fails_call (r := .filterBlock) (fails_head hrest)
    exact (reads_opt_none hnone).imp fun ps hps => .inl ⟨rfl, hps⟩
  · have hbody := Reads.word (t := tok "\x7b") (w := "\x7b") rfl
      (Reads.closed (w := "\x7d") rfl
        (hf.reads (tok "\x7d" :: rest) (ends_bracket (.inr rfl) .bool)))
    refine (Reads.left (Reads.call (r := .filterBlock) rfl hbody)).imp ?_
    rintro _ ⟨_, ⟨pos, text, _, ⟨q, hq, rfl⟩, rfl⟩, rfl⟩
    exact .inr ⟨f, _, q, rfl, rfl, rfl, hq, rfl⟩

/-- What may follow a rule: no arguments and no filter. -/
def RuleEnd (rest : List Token) : Prop := Fails (word "(") rest ∧ Fails (word "\x7b") rest

theorem WrittenFilter.args_fails {filter : Option Ast.BoolExpr} {ts : List Token}
    (h : WrittenFilter filter ts) (hrest : RuleEnd rest) : Fails (word "(") (ts ++ rest) := by
  rcases h with - | -
  · exact hrest.1
  · exact fails_word (by decide) (by decide)

theorem WrittenRule.reads {rule : Ast.SyscallRule} {ts : List Token} (h : WrittenRule rule ts)
    (hrest : RuleEnd rest) : ReadsOne (.call .syscallEntry) ts rest
      (BuildsTo .syscallEntry parseSyscallEntry Ast.SyscallRule.strip rule) := by
  obtain ⟨hname, hargs, hfilter⟩ := h
  rename_i ts
  have hargs' := argTokens_reads hargs (hfilter.args_fails hrest)
  have hfilter' := filter_reads hfilter hrest.2
  have hname' : ReadsOne (.call .ident) [nameTok rule.name] (argTokens rule.args ++ ts ++ rest) _ :=
    name_reads hname
  have hbody := Reads.cons hname' (@Reads.tilde _ _ [] _ _ _ _ _ hargs' hfilter')
  refine Reads.buildsTo (r := .syscallEntry) rfl hbody ?_
  rintro pos text _ ⟨n, _, hn, ⟨as, fs, has, hfs, rfl⟩, rfl⟩
  obtain ⟨name, span, args, filter⟩ := rule
  -- The arguments are set whether or not they are written.
  have hitems (f : List Tree) : entryItems ⟨asStr n, spanOf n, [], none⟩ (as ++ f) =
      entryItems ⟨name, spanOf n, args, none⟩ f := by
    rw [hn.asStr_eq]
    rcases has with ⟨rfl, rfl⟩ | ⟨p, hp, rfl, rfl⟩
    · rfl
    · rw [List.singleton_append, entryItems, hp]
  refine (?_ : ∃ rule', _ ∧ _)
  simp only [parseSyscallEntry, Pair.children, next, ok_bind, hitems]
  rcases hfs with ⟨rfl, rfl⟩ | ⟨f, p, q, rfl, hp, hq, hf, rfl⟩
  · exact ⟨_, rfl, rfl⟩
  · obtain ⟨f', hf', hstrip⟩ := hf.built
    refine ⟨⟨name, spanOf n, args, some f'⟩, ?_, ?_⟩
    · rw [entryItems, hp, hq]
      simp only [next, ok_bind, show parseBoolExpr q = .ok f' from hf']
      rfl
    · simp only [Ast.SyscallRule.strip, Option.map_some, hstrip]

theorem mapM_of {α : Type} {r : Rule} {build : Tree → Result α} {strip : α → α} {as : List α}
    {ps : List Tree} (h : List.Forall₂ (BuildsTo r build strip) as ps) :
    ∃ as', ps.mapM build = .ok as' ∧ as'.map strip = as.map strip := by
  induction h with
  | nil => exact ⟨[], rfl, rfl⟩
  | cons h _ ih =>
    obtain ⟨a', ha, hstrip⟩ := h.built
    obtain ⟨as', has, hstrips⟩ := ih
    refine ⟨a' :: as', ?_, ?_⟩
    · rw [List.mapM_cons, ha, ok_bind, has]
      rfl
    · rw [List.map_cons, List.map_cons, hstrip, hstrips]

theorem ruleEnd_of {s : String} (h : ¬ "(".toList <+: (tok s).text)
    (h' : ¬ "\x7b".toList <+: (tok s).text) : RuleEnd (tok s :: rest) :=
  ⟨fails_word (by decide) h, fails_word (by decide) h'⟩

/-- The rules of a block. -/
theorem rules_reads {rule : Ast.SyscallRule} {rs : List Token}
    {rules : List (Ast.SyscallRule × List Token)} (hrule : WrittenRule rule rs)
    (hrules : ∀ p ∈ rules, WrittenRule p.1 p.2) (rest : List Token) :
    ReadsOne (.call .syscallRules) (rs ++ rules.flatMap fun p => tok "," :: p.2)
      (tok "\x7d" :: rest) fun p =>
        List.Forall₂ (BuildsTo .syscallEntry parseSyscallEntry Ast.SyscallRule.strip)
          (rule :: rules.map (·.1)) p.children := by
  have hcomma {us : List Token} : RuleEnd (tok "," :: us) := ruleEnd_of (by decide) (by decide)
  have hclose {us : List Token} : RuleEnd (tok "\x7d" :: us) := ruleEnd_of (by decide) (by decide)
  have hend : Fails (word ",") (tok "\x7d" :: rest) := fails_word (by decide) (by decide)
  have hmore : Reads (many (tilde [word ",", .call .syscallEntry]))
      (rules.flatMap fun p => tok "," :: p.2) (tok "\x7d" :: rest) fun ps =>
        List.Forall₂ (fun p => BuildsTo .syscallEntry parseSyscallEntry Ast.SyscallRule.strip p.1)
          rules ps := by
    refine @reads_many _ _ _ (fun p : Ast.SyscallRule × List Token => tok "," :: p.2) _ _
      (fun p hp after hf => Reads.word (w := ",") rfl ((hrules p hp).reads ?_)) (fails_head hend)
    rcases hf with rfl | ⟨q, -, us, rfl⟩
    · exact hclose
    · exact hcomma
  have hfirst : ReadsOne (.call .syscallEntry) rs
      ((rules.flatMap fun p => tok "," :: p.2) ++ tok "\x7d" :: rest)
      (BuildsTo .syscallEntry parseSyscallEntry Ast.SyscallRule.strip rule) := by
    refine hrule.reads ?_
    rcases rules with _ | ⟨p, rules⟩
    · exact hclose
    · exact hcomma
  have htail := @Reads.tilde _ _ [] _ [] _ _ _ hmore (reads_opt_none hend)
  rw [List.append_nil] at htail
  refine (Reads.call (r := .syscallRules) rfl (Reads.cons hfirst htail)).imp ?_
  rintro _ ⟨pos, text, _, ⟨p, _, hp, ⟨ps, _, hps, rfl, rfl⟩, rfl⟩, rfl⟩
  rw [Pair.children, List.append_nil]
  exact .cons hp (List.forall₂_map_left_iff.2 hps)

/-! ## Policies -/

/-- A token that is read as the entry. -/
def EntryOf : Ast.PolicyEntry → Tree → Prop
  | .actionBlock block => BuildsTo .actionBlock parseActionBlock Ast.ActionBlock.strip block
  | .useRef name _ => fun p =>
    p.rule = .useRef ∧ ∃ q, LeafOf .ident name.toList q ∧ p.children = [q]

/-- No word of an action begins the token. -/
theorem action_fails {t : Token} {us : List Token}
    (h : ∀ w ∈ keywords ++ ["ERRNO", "TRAP", "TRACE"],
      ' ' ∉ w.toList ∧ ¬ w.toList <+: t.text) : Fails (.call .action) (t :: us) := by
  have hword {w : String} (hw : w ∈ keywords ++ ["ERRNO", "TRAP", "TRACE"]) :
      Fails (word w) (t :: us) := fails_word (h w hw).1 (h w hw).2
  refine fails_call (fails_alt (hword (by decide)) (fails_alt (hword (by decide)) ?_))
  refine fails_alt (hword (by decide)) (fails_alt (hword (by decide)) ?_)
  refine fails_alt (hword (by decide)) (fails_alt (fails_call (r := .errnoAction) (fails_head ?_))
    (fails_alt (fails_call (r := .trapAction) (fails_head ?_))
      (fails_call (r := .traceAction) (fails_head ?_))))
  all_goals exact hword (by decide)

theorem WrittenEntry.reads {entry : Ast.PolicyEntry} {ts : List Token} (h : WrittenEntry entry ts)
    (hrest : Fails (word ",") rest) :
    ReadsOne (choice [.call .actionBlock, .call .useRef]) ts rest (EntryOf entry) := by
  rcases h with @⟨action, as, rule, rs, rules, haction, hrule, hrules⟩ | @⟨name, span, h⟩
  · have hrules' := rules_reads hrule hrules rest
    have haction' := haction.reads (tok "\x7b" ::
      (rs ++ (rules.flatMap fun p => tok "," :: p.2) ++ [tok "\x7d"]) ++ rest)
    have hbody := Reads.cons haction' (Reads.word (t := tok "\x7b") (w := "\x7b") rfl
      (Reads.closed (w := "\x7d") rfl hrules'))
    refine Reads.left (Reads.buildsTo (r := .actionBlock) rfl hbody ?_)
    rintro pos text _ ⟨a, _, ha, ⟨p, hp, rfl⟩, rfl⟩
    obtain ⟨action', haction', hastrip⟩ := ha.built
    obtain ⟨rules', hrules', hrstrip⟩ := mapM_of hp
    refine ⟨⟨action', rules'⟩, ?_, ?_⟩
    · simp only [parseActionBlock, children_mk, next, ok_bind, haction', hrules']
      rfl
    · simp only [Ast.ActionBlock.strip, hastrip, hrstrip]
  · have hfails : Fails (.call .actionBlock) ([tok "USE", nameTok name] ++ rest) :=
      fails_call (r := .actionBlock) (fails_head (action_fails (by decide)))
    have hname : ReadsOne (.call .ident) [nameTok name] ([] ++ rest) _ := name_reads h
    have hbody := Reads.word (t := tok "USE") (w := "USE") rfl
      (@Reads.cons _ _ [] _ _ _ _ _ hname (reads_opt_none hrest))
    refine Reads.right hfails ((Reads.call (r := .useRef) rfl hbody).imp ?_)
    rintro _ ⟨pos, text, _, ⟨q, _, hq, rfl, rfl⟩, rfl⟩
    exact ⟨rfl, q, hq, rfl⟩

theorem WrittenEntry.comma_fails {entry : Ast.PolicyEntry} {ts : List Token}
    (h : WrittenEntry entry ts) : Fails (word ",") (ts ++ rest) := by
  rcases h with ⟨rules, haction⟩ | -
  · rcases haction with - | - | - | - | - | - | - | -
    all_goals exact fails_word (by decide) (by decide)
  · exact fails_word (by decide) (by decide)

/-- The loop over the entries of a policy. -/
theorem policyItems_of {entries : List Ast.PolicyEntry} {ps : List Tree}
    (h : List.Forall₂ EntryOf entries ps) : ∃ entries', policyItems ps = .ok entries' ∧
      entries'.map Ast.PolicyEntry.strip = entries.map Ast.PolicyEntry.strip := by
  induction h with
  | nil => exact ⟨[], rfl, rfl⟩
  | @cons entry p entries ps h _ ih =>
    obtain ⟨entries', hentries, hstrips⟩ := ih
    rcases entry with block | ⟨name, span⟩
    · obtain ⟨block', hblock, hstrip⟩ := h.built
      refine ⟨.actionBlock block' :: entries', ?_, ?_⟩
      · rw [policyItems, h.rule_eq]
        simp only [hblock, hentries, ok_bind]
        rfl
      · rw [List.map_cons, List.map_cons, hstrips, Ast.PolicyEntry.strip, hstrip]
        rfl
    · obtain ⟨hp, q, hq, hchildren⟩ := h
      refine ⟨.useRef name (spanOf q) :: entries', ?_, ?_⟩
      · rw [policyItems, hp]
        simp only [hchildren, next, hentries, ok_bind, hq.asStr_eq]
        rfl
      · rw [List.map_cons, List.map_cons, hstrips]
        rfl

/-! ## Files -/

/-- A token that is read as what stands at the top level of a file. -/
def ItemOf : Item → Tree → Prop
  | .include i => fun p => p.rule = .includeDirective ∧
    ∃ q, q.text = '"' :: i.filename.toList ++ ['"'] ∧ p.children = [q]
  | .define name value => fun p => p.rule = .define ∧ ∃ q v, LeafOf .ident name.toList q ∧
    BuildsTo .expr parseExpr Ast.Expr.strip value v ∧ p.children = [q, v]
  | .policy own => BuildsTo .policy parsePolicyBlock Ast.Policy.strip own
  | .useStmt own => BuildsTo .useStmt parseUseStmt Ast.UseStmt.strip own

def topLevel : Exp Rule :=
  choice [.call .includeDirective, .call .define, .call .policy, .call .useStmt]

theorem policy_reads {name : String} {entries : List (Ast.PolicyEntry × List Token)}
    (hname : IsIdent name.toList) (h : ∀ p ∈ entries, WrittenEntry p.1 p.2) :
    ReadsOne (.call .policy)
      (tok "POLICY" :: nameTok name :: tok "\x7b" :: (entries.flatMap (·.2) ++ [tok "\x7d"])) rest
      (BuildsTo .policy parsePolicyBlock Ast.Policy.strip ⟨name, entries.map (·.1)⟩) := by
  have hentries : Reads (many (choice [.call .actionBlock, .call .useRef]))
      (entries.flatMap (·.2)) (tok "\x7d" :: rest)
      fun ps => List.Forall₂ (fun p => EntryOf p.1) entries ps := by
    refine @reads_many _ _ _ (·.2) _ _ (fun p hp after hf => (h p hp).reads ?_) ?_
    · rcases hf with rfl | ⟨q, hq, us, rfl⟩
      · exact fails_word (by decide) (by decide)
      · exact (h q hq).comma_fails
    · refine fails_alt (fails_call (r := .actionBlock) (fails_head (action_fails (by decide)))) ?_
      exact fails_call (r := .useRef) (fails_head (fails_word (by decide) (by decide)))
  have hname' : ReadsOne (.call .ident) [nameTok name]
      (tok "\x7b" :: (entries.flatMap (·.2) ++ [tok "\x7d"]) ++ rest) _ := name_reads hname
  have hbody := Reads.word (t := tok "POLICY") (w := "POLICY") rfl (Reads.cons hname'
    (Reads.word (t := tok "\x7b") (w := "\x7b") rfl (Reads.closed (w := "\x7d") rfl hentries)))
  refine Reads.buildsTo rfl hbody ?_
  rintro pos text _ ⟨q, ps, hq, hps, rfl⟩
  obtain ⟨entries', hbuilt, hstrip⟩ := policyItems_of (List.forall₂_map_left_iff.2 hps)
  refine ⟨⟨name, entries'⟩, ?_, ?_⟩
  · simp only [parsePolicyBlock, children_mk, next, ok_bind, hbuilt, hq.asStr_eq]
    rfl
  · simp only [Ast.Policy.strip, hstrip]

theorem useNames_of {names : List (String × Span)} {ps : List Tree} {action : Ast.Action} {a : Tree}
    (h : List.Forall₂ (fun p => LeafOf .ident p.1.toList) names ps)
    (ha : BuildsTo .action parseAction Ast.Action.strip action a) :
    ∀ {acc acc' : List (String × Span)},
    acc'.map (fun p => (p.1, (default : Span))) = acc.map (fun p => (p.1, default)) →
    ∃ u, useNames acc' (ps ++ [a]) = .ok u ∧
      u.strip = (Ast.UseStmt.mk (acc ++ names) action).strip := by
  induction h with
  | nil =>
    intro acc acc' hacc
    obtain ⟨action', haction, hstrip⟩ := ha.built
    refine ⟨⟨acc', action'⟩, ?_, ?_⟩
    · rw [List.nil_append, useNames, ha.rule_eq]
      simp only [haction, ok_bind]
      rfl
    · simp only [Ast.UseStmt.strip, hacc, hstrip, List.append_nil]
  | @cons name p names ps h _ ih =>
    intro acc acc' hacc
    have hacc' : (acc' ++ [(asStr p, spanOf p)]).map (fun p => (p.1, (default : Span))) =
        (acc ++ [name]).map (fun p => (p.1, default)) := by
      rw [List.map_append, List.map_append, hacc]
      simp [h.asStr_eq]
    obtain ⟨u, hu, hstrip⟩ := ih hacc'
    refine ⟨u, ?_, ?_⟩
    · rw [List.cons_append, useNames, h.rule_eq]
      exact hu
    · rw [hstrip, List.append_assoc, List.singleton_append]

theorem useStmt_reads {name : String} {span : Span} {names : List (String × Span)}
    {action : Ast.Action} {ts : List Token}
    (h : ∀ p ∈ (name, span) :: names, IsIdent p.1.toList) (haction : WrittenAction action ts) :
    ReadsOne (.call .useStmt)
      (tok "USE" :: nameTok name :: (moreNames (names.map (·.1)) ++ tok "DEFAULT" :: ts)) rest
      (BuildsTo .useStmt parseUseStmt Ast.UseStmt.strip ⟨(name, span) :: names, action⟩) := by
  rw [List.forall_mem_cons] at h
  have hmore := @moreNames_reads (names.map (·.1)) (by simpa using h.2)
    (tok "DEFAULT" :: ts ++ rest) (fails_word (by decide) (by decide))
  have hname : ReadsOne (.call .ident) [nameTok name]
      (moreNames (names.map (·.1)) ++ tok "DEFAULT" :: ts ++ rest) _ := name_reads h.1
  have haction' : Reads (tilde [.call .action]) ts rest _ := haction.reads rest
  have htail := Reads.tilde hmore (Reads.word (t := tok "DEFAULT") (w := "DEFAULT") rfl haction')
  have hbody := Reads.word (t := tok "USE") (w := "USE") rfl (Reads.cons hname htail)
  refine Reads.buildsTo (r := .useStmt) rfl hbody ?_
  rintro pos text _ ⟨q, _, hq, ⟨ps, _, hps, ⟨a, ha, rfl⟩, rfl⟩, rfl⟩
  have hnames :
      List.Forall₂ (fun p => LeafOf .ident p.1.toList) ((name, span) :: names) (q :: ps) :=
    .cons hq
      ((List.forall₂_map_left_iff (R := fun name : String => LeafOf .ident name.toList)).1 hps)
  exact @useNames_of _ _ _ _ hnames ha [] [] rfl

theorem WrittenItem.reads {item : Item} {ts : List Token} (h : WrittenItem item ts)
    (hrest : Fails (word "|") rest) : ReadsOne topLevel ts rest (ItemOf item) := by
  rcases h with @⟨i, hi⟩ | @⟨name, value, ts, hname, hvalue⟩ | @⟨name, entries, hname, hentries⟩ |
    @⟨name, span, names, action, ts, hnames, haction⟩
  · have htext : (Token.of ('"' :: i.filename.toList ++ ['"'])).text =
        '"' :: i.filename.toList ++ ['"'] := Token.of_text ⟨_, _, rfl, by decide⟩
    have hstring : Reads (tilde [.call .stringLiteral]) [.of ('"' :: i.filename.toList ++ ['"'])]
        rest _ := string_reads hi htext
    have hbody := Reads.word (t := tok "#include") (w := "#include") rfl hstring
    refine ReadsOne.imp (Reads.left (Reads.call (r := .includeDirective) rfl hbody)) ?_
    rintro _ ⟨pos, text, _, ⟨_, ⟨q, rfl⟩, rfl⟩, rfl⟩
    exact ⟨rfl, .mk .stringLiteral q _ [], htext, rfl⟩
  · have hname' : ReadsOne (.call .ident) [nameTok name] (ts ++ rest) _ := name_reads hname
    have hvalue' : Reads (tilde [.call .expr]) ts rest _ :=
      hvalue.reads rest (exprEnd_of_word hrest)
    have hbody := Reads.word (t := tok "#define") (w := "#define") rfl (Reads.cons hname' hvalue')
    refine ReadsOne.imp (Reads.right (fails_call (r := .includeDirective) (fails_head
      (fails_word (by decide) (by decide)))) (Reads.left (Reads.call (r := .define) rfl hbody))) ?_
    rintro _ ⟨pos, text, _, ⟨q, _, hq, ⟨v, hv, rfl⟩, rfl⟩, rfl⟩
    exact ⟨rfl, q, v, hq, hv, rfl⟩
  · refine Reads.right ?_ (Reads.right ?_ (Reads.left (policy_reads hname hentries)))
    · exact fails_call (r := .includeDirective) (fails_head (fails_word (by decide) (by decide)))
    · exact fails_call (r := .define) (fails_head (fails_word (by decide) (by decide)))
  · refine Reads.right ?_ (Reads.right ?_ (Reads.right ?_ (useStmt_reads hnames haction)))
    · exact fails_call (r := .includeDirective) (fails_head (fails_word (by decide) (by decide)))
    · exact fails_call (r := .define) (fails_head (fails_word (by decide) (by decide)))
    · exact fails_call (r := .policy) (fails_head (fails_word (by decide) (by decide)))

theorem WrittenItem.bar_fails {item : Item} {ts : List Token} (h : WrittenItem item ts) :
    Fails (word "|") (ts ++ rest) := by
  rcases h with - | - | - | -
  all_goals exact fails_word (by decide) (by decide)

def Ast.PolicyFile.add (file : Ast.PolicyFile) : Item → Ast.PolicyFile
  | .include i => { file with includes := file.includes ++ [i] }
  | .define name value => { file with defines := file.defines ++ [(name, value)] }
  | .policy own => { file with policies := file.policies ++ [own] }
  | .useStmt own => { file with useStmt := some own }

/-- The loop over the items of a file. -/
theorem fileItems_of {items : List Item} {ps : List Tree} {eoi : Tree} (heoi : eoi.rule = .eoi)
    (h : List.Forall₂ ItemOf items ps) : ∀ {file file' : Ast.PolicyFile}, file'.strip = file.strip →
    ∃ g, fileItems file' (ps ++ [eoi]) = .ok g ∧
      g.strip = (items.foldl Ast.PolicyFile.add file).strip := by
  induction h with
  | nil =>
    intro file file' hfile
    refine ⟨file', ?_, hfile⟩
    rw [List.nil_append, fileItems, heoi]
    rfl
  | @cons item p items ps h _ ih =>
    intro file file' hfile
    have hparts := Ast.PolicyFile.mk.injEq .. ▸ hfile
    obtain ⟨hincludes, hdefines, hpolicies, huse⟩ := hparts
    rw [List.cons_append, List.foldl_cons, fileItems]
    rcases item with i | ⟨name, value⟩ | own | own
    · obtain ⟨hp, q, hq, hchildren⟩ := h
      rw [hp]
      simp only [hchildren, next, ok_bind, hq, stripQuotes_eq, String.ofList_toList]
      exact ih (by
        simp [Ast.PolicyFile.strip, Ast.PolicyFile.add, hincludes, hdefines, hpolicies, huse])
    · obtain ⟨hp, q, v, hq, hv, hchildren⟩ := h
      obtain ⟨value', hvalue, hstrip⟩ := hv.built
      rw [hp]
      simp only [hchildren, next, ok_bind, hvalue, hq.asStr_eq]
      exact ih (by
        simp [Ast.PolicyFile.strip, Ast.PolicyFile.add, hincludes, hdefines, hpolicies, huse,
          hstrip])
    · obtain ⟨own', hown, hstrip⟩ := h.built
      rw [h.rule_eq]
      simp only [hown, ok_bind]
      exact ih (by
        simp [Ast.PolicyFile.strip, Ast.PolicyFile.add, hincludes, hdefines, hpolicies, huse,
          hstrip])
    · obtain ⟨own', hown, hstrip⟩ := h.built
      rw [h.rule_eq]
      simp only [hown, ok_bind]
      exact ih (by
        simp [Ast.PolicyFile.strip, Ast.PolicyFile.add, hincludes, hdefines, hpolicies, hstrip])

theorem foldl_items (file : Ast.PolicyFile) : file.items.foldl Ast.PolicyFile.add {} = file := by
  have hincludes (l : List Ast.Include) (f : Ast.PolicyFile) :
      (l.map Item.include).foldl Ast.PolicyFile.add f = { f with includes := f.includes ++ l } := by
    induction l generalizing f with
    | nil => simp
    | cons i l ih => simp [ih, Ast.PolicyFile.add]
  have hdefines (l : List (String × Ast.Expr)) (f : Ast.PolicyFile) :
      (l.map fun d => Item.define d.1 d.2).foldl Ast.PolicyFile.add f =
        { f with defines := f.defines ++ l } := by
    induction l generalizing f with
    | nil => simp
    | cons d l ih => simp [ih, Ast.PolicyFile.add]
  have hpolicies (l : List Ast.Policy) (f : Ast.PolicyFile) :
      (l.map Item.policy).foldl Ast.PolicyFile.add f = { f with policies := f.policies ++ l } := by
    induction l generalizing f with
    | nil => simp
    | cons p l ih => simp [ih, Ast.PolicyFile.add]
  unfold Ast.PolicyFile.items
  rw [List.foldl_append, List.foldl_append, List.foldl_append, hincludes, hdefines, hpolicies]
  rcases file with ⟨includes, defines, policies, _ | useStmt⟩ <;> rfl

theorem file_reads {items : List (Item × List Token)} (h : ∀ p ∈ items, WrittenItem p.1 p.2) :
    ReadsOne (.call .file) (items.flatMap (·.2)) [] fun p => ∃ ps eoi, p.children = ps ++ [eoi] ∧
      eoi.rule = .eoi ∧ List.Forall₂ (fun p => ItemOf p.1) items ps := by
  have heoi : ReadsOne (.call .eoi) [] [] fun p => p.rule = .eoi := by
    intro pos
    have hbody : Derives grammar (grammar.body .eoi) pos [] (some ⟨[], [], []⟩) := Derives.eoi
    have hd : Derives grammar (.call .eoi) pos [] (some ⟨[.mk .eoi pos [] []], [], []⟩) :=
      .call hbody
    exact ⟨_, _, _, .inr rfl, hd, _, rfl, rfl⟩
  have hnil {w : String} (hw : w.toList ≠ []) : Fails (word w) [] := fails_word_nil hw
  have hitems : Reads (many topLevel) (items.flatMap (·.2)) [] fun ps =>
      List.Forall₂ (fun p => ItemOf p.1) items ps := by
    refine @reads_many _ _ _ (·.2) _ _ (fun p hp after hf => (h p hp).reads ?_) ?_
    · rcases hf with rfl | ⟨q, hq, us, rfl⟩
      · exact hnil (by decide)
      · exact (h q hq).bar_fails
    · refine fails_alt (fails_call (r := .includeDirective) (fails_head (hnil (by decide)))) ?_
      refine fails_alt (fails_call (r := .define) (fails_head (hnil (by decide)))) (fails_alt ?_ ?_)
      · exact fails_call (r := .policy) (fails_head (hnil (by decide)))
      · exact fails_call (r := .useStmt) (fails_head (hnil (by decide)))
  have htail := @Reads.tilde _ _ [] _ [] _ _ _ hitems heoi
  rw [List.append_nil] at htail
  have hbody := Reads.tilde (@reads_empty (items.flatMap (·.2) ++ [])) htail
  refine (Reads.call (r := .file) rfl hbody).imp ?_
  rintro _ ⟨pos, text, _, ⟨_, _, rfl, ⟨ps, _, hps, ⟨eoi, heoi, rfl⟩, rfl⟩, rfl⟩, rfl⟩
  exact ⟨ps, eoi, rfl, heoi, hps⟩

end Rules

/-! ## Files that were parsed -/

section Image

/-- A quoted name ends at the first quote. -/
theorem noQuote_chars {pos : ℕ} {s : List Char} {m : Match Rule}
    (h : Derives grammar (.star (atomic [.neg (word "\""), any])) pos s (some m)) :
    NoQuote m.text := by
  generalize he : Exp.star (atomic [.neg (word "\""), any]) = e at h
  generalize hr : some m = r at h
  induction h generalizing m with
  | star_nil =>
    obtain rfl := Option.some.inj hr
    simp [NoQuote]
  | @star_cons a pos s m₁ m₂ ha hs iha ihs =>
    cases he
    obtain rfl := Option.some.inj hr
    have htail : NoQuote m₂.text := ihs rfl rfl
    obtain ⟨m₃, m₄, hneg, hany, htext⟩ := Derives.seq_inv ha
    obtain ⟨hlit, htext₃, hrest₃⟩ := Derives.neg_lit_inv hneg
    obtain ⟨c, hc, htext₄⟩ := Derives.chr_inv hany
    rw [← hrest₃, hc] at hlit
    have hne : '"' ≠ c := by
      rintro rfl
      exact hlit (List.prefix_append ['"'] m₄.rest)
    simpa [NoQuote, htext, htext₃, htext₄, hne] using htail
  | _ => cases he

theorem stringLiteral_noQuote {pos : ℕ} {s : List Char} {m : Match Rule}
    (h : Derives grammar Rule.stringLiteral.body pos s (some m)) {l : List Char}
    (hl : m.text = '"' :: l ++ ['"']) : NoQuote l := by
  obtain ⟨m₁, m₂, hopen, hrest, htext⟩ := Derives.seq_inv h
  obtain ⟨m₃, m₄, hchars, hclose, htext₂⟩ := Derives.seq_inv hrest
  have hquote : "\"".toList = ['"'] := rfl
  rw [htext, htext₂, hopen.lit_inv, hclose.lit_inv, hquote] at hl
  have heq : m₃.text = l := by simpa using hl
  exact heq ▸ noQuote_chars hchars

theorem parsePolicy_writable {pest : Pest} (hpest : pest.Faithful) {text : List Char}
    {file : Ast.PolicyFile} (h : Parser.parsePolicy pest text = .ok (.ok file)) :
    file.Writable NoQuote := by
  unfold Parser.parsePolicy at h
  rcases htokens : pest text with e | tokens <;> rw [htokens] at h
  · simp [pure, Except.pure] at h
  · obtain ⟨t, rest, hd⟩ := (hpest text tokens).1 htokens
    have hquotes : Quotes NoQuote tokens := by
      refine hd.nodes (P := fun q => q.rule = .stringLiteral → ∀ s, q.text = '"' :: s ++ ['"'] →
        NoQuote s) (fun r pos s m _ hm hr l hl => ?_) _ rfl
      obtain rfl : r = .stringLiteral := hr
      exact stringLiteral_noQuote hm hl
    have hbuilt := buildFile_built (hd.yields _ rfl) hquotes
    simp only [bind_eq_ok] at h
    obtain ⟨file', hfile, heq⟩ := h
    obtain rfl : file' = file := by simpa [pure, Except.pure] using heq
    by_cases hrange : InRange tokens
    · obtain ⟨g, hg, hwritable⟩ := hbuilt.ok hrange
      obtain rfl := Except.ok.inj (hg.symm.trans hfile)
      exact hwritable
    · obtain ⟨message, hpanic⟩ := hbuilt.panics hrange
      rw [hfile] at hpanic
      simp at hpanic

/-- Every spelling of the file is accepted and gives it back, up to spans. -/
theorem WrittenFile.parses {pest : Pest} (hpest : pest.Faithful) {file : Ast.PolicyFile}
    {ts : List Token} (h : WrittenFile file ts) :
    ∃ file', Parser.parsePolicy pest (joined ts) = .ok (.ok file') ∧ file'.strip = file.strip := by
  obtain ⟨items, hitems, hwritten, rfl⟩ := h
  obtain ⟨_, text, rest, -, hd, p, ⟨ps, eoi, hchildren, heoi, hps⟩, rfl⟩ := file_reads hwritten 0
  rw [List.append_nil] at hd
  obtain ⟨g, hg, hstrip⟩ := @fileItems_of _ _ _ heoi (List.forall₂_map_left_iff.2 hps) {} {} rfl
  refine ⟨g, ?_, ?_⟩
  · unfold Parser.parsePolicy
    rw [(hpest _ _).2 ⟨text, rest, hd⟩]
    simp only [buildFile, next, ok_bind, hchildren, hg]
    rfl
  · rw [hstrip, hitems, foldl_items]

end Image

/-- What was parsed is given back by the parse of its spelling with all the parentheses, and of
every other spelling, up to spans. -/
theorem parsePolicy_roundTrip {pest : Pest} (hpest : pest.Faithful) {text : List Char}
    {file : Ast.PolicyFile} (h : Parser.parsePolicy pest text = .ok (.ok file)) :
    WrittenFile file (fileTokens file) ∧ ∀ ts, WrittenFile file ts →
      ∃ file', Parser.parsePolicy pest (joined ts) = .ok (.ok file') ∧ file'.strip = file.strip :=
  ⟨fileTokens_written (parsePolicy_writable hpest h), fun _ hts => hts.parses hpest⟩

def spelledText : List Char :=
  "#define A 1|0x2 POLICY p { KILL_PROCESS { a(x) { (x&1)==A || !(x<2) && x!=3, x>=4 } } } USE p DEFAULT KILL".toList

theorem spelledText_roundTrip : ∃ file,
    Parser.parsePolicy (Pest.interpreter silentError) spelledText = .ok (.ok file) ∧
    WrittenFile file (fileTokens file) ∧ ∀ ts, WrittenFile file ts →
      ∃ file', Parser.parsePolicy (Pest.interpreter silentError) (joined ts) = .ok (.ok file') ∧
        file'.strip = file.strip := by
  have hok : ((Parser.parsePolicy (Pest.interpreter silentError) spelledText).toOption.bind
      Except.toOption).isSome = true := by decide +kernel
  rcases h : Parser.parsePolicy (Pest.interpreter silentError) spelledText with e | e | file
  · rw [h] at hok
    cases hok
  · rw [h] at hok
    cases hok
  · exact ⟨file, rfl, parsePolicy_roundTrip (Pest.interpreter_faithful silentError) h⟩

end Pnut.Kafel
