import Pnut.Kafel.Parser

/-!
# The children of each rule

What a parse tree that conforms to the grammar has below a token of each rule.
-/

namespace Pnut.Kafel

open Peg Rule

/-- The token is one of rule `r` and conforms to the grammar. -/
abbrev Is (r : Rule) (p : Tree) : Prop := p.Is grammar r

section Combinators

variable {e : Exp Rule} {es : List (Exp Rule)} {ts : List Tree}

theorem quiet_body : ∀ r, grammar.silent r = true →
    (grammar.body r).quiet grammar.silent = true := by
  rintro ⟨⟩ <;> decide

@[simp] theorem toks_word {s : String} : Toks grammar (word s) ts ↔ ts = [] := toks_lit

@[simp] theorem toks_skip : Toks grammar skip ts ↔ ts = [] := by
  constructor
  · rintro ⟨_, h⟩
    exact h.eq_nil_of_quiet quiet_body (by decide)
  · rintro rfl
    exact ⟨_, .seq .star_nil .star_nil⟩

@[simp] theorem toks_tilde_one : Toks grammar (tilde [e]) ts ↔ Toks grammar e ts := Iff.rfl

theorem tilde_cons_cons {e' : Exp Rule} :
    tilde (e :: e' :: es) = .seq e (.seq skip (tilde (e' :: es))) := rfl

@[simp] theorem toks_tilde {e' : Exp Rule} : Toks grammar (tilde (e :: e' :: es)) ts ↔
    ∃ us vs, Toks grammar e us ∧ Toks grammar (tilde (e' :: es)) vs ∧ ts = us ++ vs := by
  rw [tilde_cons_cons, toks_seq]
  simp only [toks_seq (a := skip), toks_skip]
  simp

@[simp] theorem toks_choice_one : Toks grammar (choice [e]) ts ↔ Toks grammar e ts := Iff.rfl

@[simp] theorem toks_choice {e' : Exp Rule} : Toks grammar (choice (e :: e' :: es)) ts ↔
    Toks grammar e ts ∨ Toks grammar (choice (e' :: es)) ts := toks_alt

@[simp] theorem toks_opt : Toks grammar (opt e) ts ↔ Toks grammar e ts ∨ ts = [] := by
  rw [opt, toks_alt, toks_empty]

theorem toks_many : Toks grammar (many e) ts ↔
    ∃ l : List (List Tree), (∀ us ∈ l, Toks grammar e us) ∧ ts = l.flatten := by
  simp only [many, toks_opt, toks_seq, toks_star, toks_skip]
  constructor
  · rintro (⟨us, vs, hus, ⟨l, hl, rfl⟩, rfl⟩ | rfl)
    · refine ⟨us :: l, ?_, rfl⟩
      simp only [List.mem_cons, forall_eq_or_imp]
      refine ⟨hus, fun ws hws => ?_⟩
      obtain ⟨_, xs, rfl, hxs, rfl⟩ := hl ws hws
      simpa using hxs
    · exact ⟨[], by simp⟩
  · rintro ⟨_ | ⟨us, l⟩, hl, rfl⟩
    · simp
    · simp only [List.mem_cons, forall_eq_or_imp] at hl
      exact .inl ⟨us, l.flatten, hl.1, ⟨l, fun ws hws => ⟨[], ws, rfl, hl.2 ws hws, rfl⟩, rfl⟩, rfl⟩

/-- A repetition of expressions that leave one token each. -/
theorem toks_many_of {P : Tree → Prop} (h : ∀ us, Toks grammar e us ↔ ∃ p, P p ∧ us = [p]) :
    Toks grammar (many e) ts ↔ ∀ p ∈ ts, P p := by
  rw [toks_many]
  simp only [h]
  constructor
  · rintro ⟨l, hl, rfl⟩ p hp
    obtain ⟨us, hus, hp⟩ := List.mem_flatten.1 hp
    obtain ⟨q, hq, rfl⟩ := hl us hus
    rw [List.mem_singleton.1 hp]
    exact hq
  · intro hts
    refine ⟨ts.map fun p => [p], ?_, by rw [← List.flatMap_def, List.flatMap_singleton']⟩
    simp only [List.mem_map]
    rintro _ ⟨p, hp, rfl⟩
    exact ⟨p, hts p hp, rfl⟩

theorem toks_rule {r : Rule} (hr : grammar.silent r = false) :
    Toks grammar (.call r) ts ↔ ∃ p, Is r p ∧ ts = [p] := toks_call hr

/-- `(sep ~ r)*`. -/
theorem toks_many_sep {s : String} {r : Rule} (hr : grammar.silent r = false) :
    Toks grammar (many (tilde [word s, .call r])) ts ↔ ∀ p ∈ ts, Is r p :=
  toks_many_of fun us => by simp [toks_rule hr]

end Combinators

/-! ## Rules -/

section Rules

variable {p : Tree}

theorem Is.body {r : Rule} (h : Is r p) : Toks grammar r.body p.children := h.toks

theorem toks_ident {ts : List Tree} : Toks grammar (.call .ident) ts ↔
    ∃ p, Is .ident p ∧ ts = [p] := toks_rule rfl

theorem toks_expr {ts : List Tree} : Toks grammar (.call .expr) ts ↔
    ∃ p, Is .expr p ∧ ts = [p] := toks_rule rfl

theorem Is.includeDirective (h : Is .includeDirective p) :
    ∃ lit, Is .stringLiteral lit ∧ p.children = [lit] := by
  simpa [Rule.body, toks_rule (r := .stringLiteral) rfl] using h.body

theorem Is.define (h : Is .define p) : ∃ name value, Is .ident name ∧ Is .expr value ∧
    p.children = [name, value] := by
  simpa [Rule.body, toks_ident, toks_expr, and_assoc] using h.body

theorem Is.useRef (h : Is .useRef p) : ∃ name, Is .ident name ∧ p.children = [name] := by
  simpa [Rule.body, toks_ident] using h.body

theorem Is.policy (h : Is .policy p) : ∃ name items, Is .ident name ∧
    (∀ q ∈ items, Is .actionBlock q ∨ Is .useRef q) ∧ p.children = name :: items := by
  have hitems {ts : List Tree} :
      Toks grammar (many (choice [.call .actionBlock, .call .useRef])) ts ↔
        ∀ q ∈ ts, Is .actionBlock q ∨ Is .useRef q :=
    toks_many_of fun us => by
      simp only [toks_choice, toks_choice_one, toks_rule (r := .actionBlock) rfl,
        toks_rule (r := .useRef) rfl, or_and_right, exists_or]
  simpa [Rule.body, toks_ident, hitems, and_assoc] using h.body

theorem Is.actionBlock (h : Is .actionBlock p) : ∃ action rules, Is .action action ∧
    Is .syscallRules rules ∧ p.children = [action, rules] := by
  simpa [Rule.body, toks_rule (r := .action) rfl, toks_rule (r := .syscallRules) rfl] using h.body

theorem Is.syscallRules (h : Is .syscallRules p) : ∃ e es, Is .syscallEntry e ∧
    (∀ q ∈ es, Is .syscallEntry q) ∧ p.children = e :: es := by
  simpa [Rule.body, toks_rule (r := .syscallEntry) rfl, toks_many_sep (r := .syscallEntry) rfl]
    using h.body

theorem Is.syscallEntry (h : Is .syscallEntry p) : ∃ name decl filter, Is .ident name ∧
    (∀ q ∈ decl, Is .argDecl q) ∧ (∀ q ∈ filter, Is .filterBlock q) ∧
    p.children = name :: (Option.toList decl ++ Option.toList filter) := by
  have := h.body
  simp only [Rule.body, toks_tilde, toks_tilde_one, toks_ident, toks_opt,
    toks_rule (r := .argDecl) rfl, toks_rule (r := .filterBlock) rfl] at this
  obtain ⟨_, _, ⟨name, hname, rfl⟩, ⟨us, vs, hus, hvs, rfl⟩, hcs⟩ := this
  rcases hus with ⟨q, hq, rfl⟩ | rfl <;> rcases hvs with ⟨q', hq', rfl⟩ | rfl
  · exact ⟨name, some q, some q', hname, by simpa, by simpa, by simpa using hcs⟩
  · exact ⟨name, some q, none, hname, by simpa, by simp, by simpa using hcs⟩
  · exact ⟨name, none, some q', hname, by simp, by simpa, by simpa using hcs⟩
  · exact ⟨name, none, none, hname, by simp, by simp, by simpa using hcs⟩

theorem Is.argDecl (h : Is .argDecl p) : ∃ q qs, Is .ident q ∧ (∀ q ∈ qs, Is .ident q) ∧
    p.children = q :: qs := by
  simpa [Rule.body, toks_ident, toks_many_sep (r := .ident) rfl, and_assoc] using h.body

theorem Is.filterBlock (h : Is .filterBlock p) : ∃ e, Is .boolExpr e ∧ p.children = [e] := by
  simpa [Rule.body, toks_rule (r := .boolExpr) rfl] using h.body

/-- The three levels of binary operators have one shape. -/
theorem Is.chain {r : Rule} (operand : Rule) (sep : String) (hr : grammar.silent operand = false)
    (hbody : r.body = tilde [.call operand, many (tilde [word sep, .call operand])])
    (h : Is r p) : ∃ q qs, Is operand q ∧ (∀ q ∈ qs, Is operand q) ∧ p.children = q :: qs := by
  simpa [hbody, toks_rule hr, toks_many_sep hr] using h.body

theorem Is.notExpr (h : Is .notExpr p) :
    ∃ child, (Is .notExpr child ∨ Is .primaryExpr child) ∧ p.children = [child] := by
  simpa [Rule.body, toks_rule (r := .notExpr) rfl, toks_rule (r := .primaryExpr) rfl,
    or_and_right, exists_or] using h.body

theorem Is.primaryExpr (h : Is .primaryExpr p) :
    ∃ inner, (Is .boolExpr inner ∨ Is .comparison inner) ∧ p.children = [inner] := by
  simpa [Rule.body, toks_rule (r := .boolExpr) rfl, toks_rule (r := .comparison) rfl,
    or_and_right, exists_or] using h.body

theorem Is.comparison (h : Is .comparison p) : ∃ lhs op rhs, Is .cmpLhs lhs ∧ Is .cmpOp op ∧
    Is .cmpRhs rhs ∧ p.children = [lhs, op, rhs] := by
  simpa [Rule.body, toks_rule (r := .cmpLhs) rfl, toks_rule (r := .cmpOp) rfl,
    toks_rule (r := .cmpRhs) rfl, and_assoc] using h.body

theorem Is.cmpLhs (h : Is .cmpLhs p) :
    ∃ inner, (Is .maskedExpr inner ∨ Is .ident inner) ∧ p.children = [inner] := by
  simpa [Rule.body, toks_rule (r := .maskedExpr) rfl, toks_ident, or_and_right, exists_or]
    using h.body

theorem Is.maskedExpr (h : Is .maskedExpr p) : ∃ name mask, Is .ident name ∧ Is .expr mask ∧
    p.children = [name, mask] := by
  simpa [Rule.body, toks_ident, toks_expr, and_assoc] using h.body

theorem Is.cmpRhs (h : Is .cmpRhs p) : ∃ e, Is .expr e ∧ p.children = [e] := by
  simpa [Rule.body, toks_expr] using h.body

theorem Is.exprAtom (h : Is .exprAtom p) :
    ∃ inner, (Is .number inner ∨ Is .ident inner ∨ Is .expr inner) ∧ p.children = [inner] := by
  simpa [Rule.body, toks_rule (r := .number) rfl, toks_ident, toks_expr, or_and_right, exists_or]
    using h.body

theorem Is.useStmt (h : Is .useStmt p) : ∃ name names action, Is .ident name ∧
    (∀ q ∈ names, Is .ident q) ∧ Is .action action ∧ p.children = name :: (names ++ [action]) := by
  have := h.body
  simp only [Rule.body, toks_tilde, toks_tilde_one, toks_word, toks_ident,
    toks_many_sep (r := .ident) rfl, toks_rule (r := .action) rfl] at this
  obtain ⟨_, _, rfl, ⟨_, _, ⟨name, hname, rfl⟩, ⟨names, _, hnames,
    ⟨_, _, rfl, ⟨action, haction, rfl⟩, rfl⟩, rfl⟩, rfl⟩, hcs⟩ := this
  exact ⟨name, names, action, hname, hnames, haction, by simpa using hcs⟩

/-- The rules below an action with a value. -/
theorem Is.valued {r : Rule} {s : String}
    (hbody : r.body = tilde [word s, word "(", .call .expr, word ")"]) (h : Is r p) :
    ∃ e, Is .expr e ∧ p.children = [e] := by
  simpa [hbody, toks_expr] using h.body

theorem Is.file (h : Is .file p) : ∃ items eoi, (∀ q ∈ items, Is .includeDirective q ∨
    Is .define q ∨ Is .policy q ∨ Is .useStmt q) ∧ Is .eoi eoi ∧ p.children = items ++ [eoi] := by
  have hitems {ts : List Tree} :
      Toks grammar (many (choice [.call .includeDirective, .call .define, .call .policy,
        .call .useStmt])) ts ↔ ∀ q ∈ ts, Is .includeDirective q ∨ Is .define q ∨ Is .policy q ∨
          Is .useStmt q :=
    toks_many_of fun us => by
      simp only [toks_choice, toks_choice_one, toks_rule (r := .includeDirective) rfl,
        toks_rule (r := .define) rfl, toks_rule (r := .policy) rfl, toks_rule (r := .useStmt) rfl,
        or_and_right, exists_or]
  have := h.body
  simp only [Rule.body, soi, toks_tilde, toks_tilde_one, hitems, toks_rule (r := .eoi) rfl,
    toks_empty] at this
  obtain ⟨_, _, rfl, ⟨items, _, hitems, ⟨eoi, heoi, rfl⟩, rfl⟩, hcs⟩ := this
  exact ⟨items, eoi, hitems, heoi, by simpa using hcs⟩

end Rules

end Pnut.Kafel
