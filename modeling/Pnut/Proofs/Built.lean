import Pnut.Proofs.Literals

/-!
# What the builders make of a conforming tree

Every builder succeeds on a token of its rule, unless a number below the token does not fit 64
bits; then it panics. What it returns can be written down: names are identifiers, a bitwise OR has
two operands, and no list the grammar starts with an element is empty.
-/

namespace Pnut.Kafel

open Peg

/-! ## Trees that can be written -/

namespace Ast

mutual

def Expr.Writable : Expr → Prop
  | .number _ => True
  | .ident name _ => IsIdent name.toList
  | .bitOr parts => 2 ≤ parts.length ∧ Expr.AllWritable parts

def Expr.AllWritable : List Expr → Prop
  | [] => True
  | e :: es => e.Writable ∧ Expr.AllWritable es

end

def Action.Writable : Action → Prop
  | .errno value | .trap value | .trace value => value.Writable
  | _ => True

def CmpLhs.Writable : CmpLhs → Prop
  | .arg name _ => IsIdent name.toList
  | .masked name _ mask => IsIdent name.toList ∧ mask.Writable

def BoolExpr.Writable : BoolExpr → Prop
  | .compare lhs _ rhs => lhs.Writable ∧ rhs.Writable
  | .and a b | .or a b => a.Writable ∧ b.Writable
  | .not inner => inner.Writable
  | .literal _ => False

structure SyscallRule.Writable (rule : SyscallRule) : Prop where
  name : IsIdent rule.name.toList
  args : ∀ arg ∈ rule.args, IsIdent arg.toList
  filter : ∀ f ∈ rule.filter, f.Writable

structure ActionBlock.Writable (block : ActionBlock) : Prop where
  action : block.action.Writable
  rules_ne : block.rules ≠ []
  rules : ∀ rule ∈ block.rules, rule.Writable

def PolicyEntry.Writable : PolicyEntry → Prop
  | .actionBlock block => block.Writable
  | .useRef name _ => IsIdent name.toList

structure Policy.Writable (policy : Policy) : Prop where
  name : IsIdent policy.name.toList
  entries : ∀ entry ∈ policy.entries, entry.Writable

structure UseStmt.Writable (useStmt : UseStmt) : Prop where
  policies_ne : useStmt.policies ≠ []
  policies : ∀ p ∈ useStmt.policies, IsIdent p.1.toList
  action : useStmt.defaultAction.Writable

/-- `quoted` is what is known of the names between quotes. -/
structure PolicyFile.Writable (quoted : List Char → Prop) (file : PolicyFile) : Prop where
  includes : ∀ i ∈ file.includes, quoted i.filename.toList
  defines : ∀ d ∈ file.defines, IsIdent d.1.toList ∧ d.2.Writable
  policies : ∀ p ∈ file.policies, p.Writable
  useStmt : ∀ u ∈ file.useStmt, u.Writable

end Ast

/-! ## Numbers in range -/

/-- Every number among and below the tokens fits 64 bits. -/
def InRange (ps : List Tree) : Prop :=
  ∀ q ∈ nodesOf ps, q.rule = .number → literalValue q.text < 2 ^ 64

section InRange

variable {p : Tree} {ps : List Tree}

@[simp] theorem inRange_nil : InRange [] := by simp [InRange, nodesOf]

theorem inRange_cons : InRange (p :: ps) ↔ InRange [p] ∧ InRange ps := by
  simp only [InRange, nodesOf, List.append_nil, List.mem_append, or_imp, forall_and]

theorem inRange_append : ∀ {ps qs : List Tree}, InRange (ps ++ qs) ↔ InRange ps ∧ InRange qs
  | [], qs => by simp
  | p :: ps, qs => by
    rw [List.cons_append, inRange_cons, inRange_append, ← and_assoc, ← inRange_cons]

/-- A token that is no number is in range if its children are. -/
theorem inRange_children (h : p.rule ≠ .number) : InRange [p] ↔ InRange p.children := by
  obtain ⟨r, n, t, cs⟩ := p
  have hr : r ≠ .number := h
  simp only [InRange, nodesOf, Pair.nodes, List.append_nil, List.mem_cons, forall_eq_or_imp,
    Pair.rule, Pair.children]
  exact and_iff_right fun h => absurd h hr

theorem Is.inRange {r : Rule} (h : Is r p) (hr : r ≠ .number) :
    InRange [p] ↔ InRange p.children := inRange_children (h.rule_eq ▸ hr)

/-- The rules without tokens of their own below. -/
theorem Is.leaf {r : Rule} (h : Is r p) (hr : (grammar.body r).quiet grammar.silent = true) :
    p.children = [] := h.yields.eq_nil_of_quiet quiet_body hr

theorem Is.inRange_leaf {r : Rule} (h : Is r p)
    (hr : (grammar.body r).quiet grammar.silent = true) (hne : r ≠ .number) : InRange [p] := by
  rw [h.inRange hne, h.leaf hr]
  exact inRange_nil

theorem Is.inRange_ident (h : Is .ident p) : InRange [p] := h.inRange_leaf (by decide) (by decide)

theorem Is.inRange_number (h : Is .number p) :
    InRange [p] ↔ literalValue p.text < 2 ^ 64 := by
  have hleaf := h.leaf (by decide)
  have hrule := h.rule_eq
  obtain ⟨r, n, t, cs⟩ := p
  simp only [Pair.children, Pair.rule] at hleaf hrule
  subst hleaf hrule
  simp [InRange, nodesOf, Pair.nodes, Pair.rule, Pair.text]

end InRange

/-! ## Results -/

/-- The run returns something with `Q` if `F` holds, and else panics. -/
structure Built {α : Type} (Q : α → Prop) (F : Prop) (r : Result α) : Prop where
  ok : F → ∃ a, r = .ok a ∧ Q a
  panics : ¬ F → Panics r

section Results

variable {α β : Type} {Q : α → Prop} {Q' : β → Prop} {F F' : Prop}

theorem Built.pure {a : α} (h : Q a) : Built Q True (.ok a) := ⟨fun _ => ⟨a, rfl, h⟩, by simp⟩

theorem Built.congr {x : Result α} (h : Built Q F x) (hF : F ↔ F') : Built Q F' x :=
  propext hF ▸ h

theorem Built.bind {x : Result α} {f : α → Result β} (hx : Built Q F x)
    (hf : ∀ a, Q a → Built Q' F' (f a)) : Built Q' (F ∧ F') (x >>= f) := by
  by_cases hF : F
  · obtain ⟨a, rfl, ha⟩ := hx.ok hF
    exact ((hf a ha).congr (and_iff_right hF).symm :)
  · obtain ⟨m, rfl⟩ := hx.panics hF
    exact ⟨fun h => absurd h.1 hF, fun _ => ⟨m, rfl⟩⟩

theorem Built.map {x : Result α} {f : α → Result β} (hx : Built Q F x)
    (hf : ∀ a, Q a → ∃ c, f a = .ok c ∧ Q' c) : Built Q' F (x >>= f) := by
  have : Built Q' (F ∧ True) (x >>= f) := hx.bind fun a ha => by
    obtain ⟨c, hc, hq⟩ := hf a ha
    exact hc ▸ Built.pure hq
  simpa using this

end Results

/-! ## Value expressions -/

theorem parseNumber_built {p : Tree} (h : Is .number p) :
    Built (fun _ => True) (InRange [p]) (parseNumber p.text) := by
  rw [h.inRange_number, parseNumber_eq h.number]
  constructor
  · intro hlt
    exact ⟨_, if_pos hlt, trivial⟩
  · intro hlt
    rw [if_neg hlt]
    exact ⟨_, rfl⟩

theorem writable_ident {p : Tree} (h : Is .ident p) : IsIdent (asStr p).toList := by
  rw [asStr, String.toList_ofList]
  exact h.ident

mutual

theorem parseExpr_built : ∀ {p : Tree}, Is .expr p →
    Built Ast.Expr.Writable (InRange [p]) (parseExpr p)
  | .mk r n t cs, h => by
    obtain ⟨q, qs, hq, hqs, hcs⟩ := h.chain .exprAtom "|" rfl rfl
    have hlist := parseExprAtoms_built (show ∀ x ∈ cs, Is .exprAtom x by
      intro x hx
      rw [show cs = q :: qs from hcs] at hx
      rcases List.mem_cons.1 hx with rfl | hx
      · exact hq
      · exact hqs x hx)
    refine ((hlist.map ?_).congr (h.inRange (by decide)).symm :)
    rintro es ⟨hlen, hes⟩
    rw [show cs = q :: qs from hcs] at hlen
    rcases es with _ | ⟨e, _ | ⟨e', es⟩⟩
    · simp at hlen
    · exact ⟨e, rfl, hes.1⟩
    · exact ⟨.bitOr (e :: e' :: es), rfl, by simp, hes⟩

theorem parseExprAtoms_built : ∀ {ps : List Tree}, (∀ p ∈ ps, Is .exprAtom p) →
    Built (fun es => es.length = ps.length ∧ Ast.Expr.AllWritable es) (InRange ps)
      (parseExprAtoms ps)
  | [], _ => (Built.pure ⟨rfl, trivial⟩).congr (by simp)
  | p :: ps, h => by
    simp only [List.mem_cons, forall_eq_or_imp] at h
    rw [inRange_cons]
    refine (parseExprAtom_built h.1).bind fun e he => ?_
    refine (parseExprAtoms_built h.2).map fun es hes => ?_
    exact ⟨e :: es, rfl, by simp [hes.1], he, hes.2⟩

theorem parseExprAtom_built : ∀ {p : Tree}, Is .exprAtom p →
    Built Ast.Expr.Writable (InRange [p]) (parseExprAtom p)
  | .mk _ _ _ [], h => by
    obtain ⟨inner, -, hcs⟩ := h.exprAtom
    simp [Pair.children] at hcs
  | .mk r n t (inner :: cs), h => by
    obtain ⟨inner', hinner, hcs⟩ := h.exprAtom
    obtain ⟨rfl, rfl⟩ : inner = inner' ∧ cs = [] := by simpa [Pair.children] using hcs
    have hrange := (h.inRange (by decide)).symm
    refine Built.congr ?_ hrange
    rcases hinner with hi | hi | hi
    · simp only [parseExprAtom, hi.rule_eq]
      exact (parseNumber_built hi).map fun m _ => ⟨.number m, rfl, trivial⟩
    · simp only [parseExprAtom, hi.rule_eq]
      exact (Built.pure (a := .ident (asStr inner) (spanOf inner)) (Q := Ast.Expr.Writable)
        (writable_ident hi)).congr (iff_of_true trivial hi.inRange_ident)
    · simp only [parseExprAtom, hi.rule_eq]
      exact parseExpr_built hi

end

/-! ## Filters -/

theorem parseCmpLhs_built {p : Tree} (h : Is .cmpLhs p) :
    Built Ast.CmpLhs.Writable (InRange [p]) (parseCmpLhs p) := by
  obtain ⟨inner, hinner, hcs⟩ := h.cmpLhs
  rw [h.inRange (by decide)]
  simp only [parseCmpLhs, hcs, next, ok_bind]
  rcases hinner with hi | hi
  · obtain ⟨name, mask, hname, hmask, hcs'⟩ := hi.maskedExpr
    simp only [hi.rule_eq, hcs', ok_bind]
    refine ((parseExpr_built hmask).map fun m hm => ?_).congr ?_
    · exact ⟨.masked (asStr name) (spanOf name) m, rfl, writable_ident hname, hm⟩
    · rw [hi.inRange (by decide), hcs', inRange_cons (p := name)]
      exact (and_iff_right hname.inRange_ident).symm
  · simp only [hi.rule_eq]
    exact (Built.pure (a := .arg (asStr inner) (spanOf inner)) (Q := Ast.CmpLhs.Writable)
      (writable_ident hi)).congr (iff_of_true trivial hi.inRange_ident)

theorem parseComparison_built {p : Tree} (h : Is .comparison p) :
    Built Ast.BoolExpr.Writable (InRange [p]) (parseComparison p) := by
  obtain ⟨lhs, op, rhs, hlhs, hop, hrhs, hcs⟩ := h.comparison
  obtain ⟨e, he, hcs'⟩ := hrhs.cmpRhs
  obtain ⟨o, ho⟩ := hop.cmpOp
  rw [h.inRange (by decide), hcs, inRange_cons (p := lhs), inRange_cons (p := op)]
  simp only [parseComparison, hcs, next, ok_bind]
  refine (parseCmpLhs_built hlhs).bind fun l hl => ?_
  rw [ho]
  simp only [hcs', ok_bind]
  refine ((parseExpr_built he).map fun v hv => ?_).congr ?_
  · exact ⟨.compare l o v, rfl, hl, hv⟩
  · rw [hrhs.inRange (by decide), hcs']
    exact (and_iff_right (hop.inRange_leaf (by decide) (by decide))).symm

mutual

theorem parseBoolExpr_built : ∀ {p : Tree}, Is .boolExpr p →
    Built Ast.BoolExpr.Writable (InRange [p]) (parseBoolExpr p)
  | .mk _ _ _ [], h => by
    obtain ⟨_, _, -, -, hcs⟩ := h.chain .orExpr "," rfl rfl
    simp [Pair.children] at hcs
  | .mk r n t (q :: qs), h => by
    obtain ⟨_, _, hq, hqs, hcs⟩ := h.chain .orExpr "," rfl rfl
    obtain ⟨rfl, rfl⟩ := List.cons.inj hcs
    refine Built.congr ?_ ((h.inRange (by decide)).trans inRange_cons).symm
    exact (parseOrExpr_built hq).bind fun e he => orExprs_built he hqs

theorem orExprs_built {e : Ast.BoolExpr} (he : e.Writable) : ∀ {ps : List Tree},
    (∀ p ∈ ps, Is .orExpr p) → Built Ast.BoolExpr.Writable (InRange ps) (orExprs e ps)
  | [], _ => (Built.pure he).congr (by simp)
  | p :: ps, h => by
    simp only [List.mem_cons, forall_eq_or_imp] at h
    rw [inRange_cons]
    exact (parseOrExpr_built h.1).bind fun e' he' =>
      orExprs_built (e := .or e e') ⟨he, he'⟩ h.2

theorem parseOrExpr_built : ∀ {p : Tree}, Is .orExpr p →
    Built Ast.BoolExpr.Writable (InRange [p]) (parseOrExpr p)
  | .mk _ _ _ [], h => by
    obtain ⟨_, _, -, -, hcs⟩ := h.chain .andExpr "||" rfl rfl
    simp [Pair.children] at hcs
  | .mk r n t (q :: qs), h => by
    obtain ⟨_, _, hq, hqs, hcs⟩ := h.chain .andExpr "||" rfl rfl
    obtain ⟨rfl, rfl⟩ := List.cons.inj hcs
    refine Built.congr ?_ ((h.inRange (by decide)).trans inRange_cons).symm
    exact (parseAndExpr_built hq).bind fun e he => andExprs_built he hqs

theorem andExprs_built {e : Ast.BoolExpr} (he : e.Writable) : ∀ {ps : List Tree},
    (∀ p ∈ ps, Is .andExpr p) → Built Ast.BoolExpr.Writable (InRange ps) (andExprs e ps)
  | [], _ => (Built.pure he).congr (by simp)
  | p :: ps, h => by
    simp only [List.mem_cons, forall_eq_or_imp] at h
    rw [inRange_cons]
    exact (parseAndExpr_built h.1).bind fun e' he' =>
      andExprs_built (e := .or e e') ⟨he, he'⟩ h.2

theorem parseAndExpr_built : ∀ {p : Tree}, Is .andExpr p →
    Built Ast.BoolExpr.Writable (InRange [p]) (parseAndExpr p)
  | .mk _ _ _ [], h => by
    obtain ⟨_, _, -, -, hcs⟩ := h.chain .notExpr "&&" rfl rfl
    simp [Pair.children] at hcs
  | .mk r n t (q :: qs), h => by
    obtain ⟨_, _, hq, hqs, hcs⟩ := h.chain .notExpr "&&" rfl rfl
    obtain ⟨rfl, rfl⟩ := List.cons.inj hcs
    refine Built.congr ?_ ((h.inRange (by decide)).trans inRange_cons).symm
    exact (parseNotExpr_built hq).bind fun e he => notExprs_built he hqs

theorem notExprs_built {e : Ast.BoolExpr} (he : e.Writable) : ∀ {ps : List Tree},
    (∀ p ∈ ps, Is .notExpr p) → Built Ast.BoolExpr.Writable (InRange ps) (notExprs e ps)
  | [], _ => (Built.pure he).congr (by simp)
  | p :: ps, h => by
    simp only [List.mem_cons, forall_eq_or_imp] at h
    rw [inRange_cons]
    exact (parseNotExpr_built h.1).bind fun e' he' =>
      notExprs_built (e := .and e e') ⟨he, he'⟩ h.2

theorem parseNotExpr_built : ∀ {p : Tree}, Is .notExpr p →
    Built Ast.BoolExpr.Writable (InRange [p]) (parseNotExpr p)
  | .mk _ _ _ [], h => by
    obtain ⟨_, -, hcs⟩ := h.notExpr
    simp [Pair.children] at hcs
  | .mk r n t (child :: cs), h => by
    obtain ⟨_, hchild, hcs⟩ := h.notExpr
    obtain ⟨rfl, rfl⟩ := List.cons.inj hcs
    refine Built.congr ?_ (h.inRange (by decide)).symm
    rcases hchild with hc | hc
    · simp only [parseNotExpr, hc.rule_eq]
      exact (parseNotExpr_built hc).map fun e he => ⟨.not e, rfl, he⟩
    · simp only [parseNotExpr, hc.rule_eq]
      exact parsePrimaryExpr_built hc

theorem parsePrimaryExpr_built : ∀ {p : Tree}, Is .primaryExpr p →
    Built Ast.BoolExpr.Writable (InRange [p]) (parsePrimaryExpr p)
  | .mk _ _ _ [], h => by
    obtain ⟨_, -, hcs⟩ := h.primaryExpr
    simp [Pair.children] at hcs
  | .mk r n t (inner :: cs), h => by
    obtain ⟨_, hinner, hcs⟩ := h.primaryExpr
    obtain ⟨rfl, rfl⟩ := List.cons.inj hcs
    refine Built.congr ?_ (h.inRange (by decide)).symm
    rcases hinner with hi | hi
    · simp only [parsePrimaryExpr, hi.rule_eq]
      exact parseBoolExpr_built hi
    · simp only [parsePrimaryExpr, hi.rule_eq]
      exact parseComparison_built hi

end

/-! ## Actions, rules and policies -/

/-- The text of an action without a value is its keyword. -/
theorem Is.action {p : Tree} (h : Is .action p) :
    (p.children = [] ∧ p.text ∈ ["ALLOW".toList, "KILL_PROCESS".toList, "KILL".toList,
      "LOG".toList, "USER_NOTIF".toList]) ∨
    ∃ q, (Is .errnoAction q ∨ Is .trapAction q ∨ Is .traceAction q) ∧ p.children = [q] := by
  have hword {s : String} {t : List Char} {ts : List Tree} (h : Yields grammar (Rule.word s) t ts) :
      ts = [] ∧ t = s.toList := by cases h; exact ⟨rfl, rfl⟩
  have hcall {r : Rule} {t : List Char} {ts : List Tree} (hr : grammar.silent r = false)
      (h : Yields grammar (.call r) t ts) : ∃ q, Is r q ∧ ts = [q] := (toks_rule hr).1 ⟨_, h⟩
  have hy : Yields grammar (Rule.body .action) p.text p.children := h.yields
  cases hy with
  | alt_left h => exact .inl ⟨(hword h).1, by simp [(hword h).2]⟩
  | alt_right h =>
  cases h with
  | alt_left h => exact .inl ⟨(hword h).1, by simp [(hword h).2]⟩
  | alt_right h =>
  cases h with
  | alt_left h => exact .inl ⟨(hword h).1, by simp [(hword h).2]⟩
  | alt_right h =>
  cases h with
  | alt_left h => exact .inl ⟨(hword h).1, by simp [(hword h).2]⟩
  | alt_right h =>
  cases h with
  | alt_left h => exact .inl ⟨(hword h).1, by simp [(hword h).2]⟩
  | alt_right h =>
  cases h with
  | alt_left h => obtain ⟨q, hq, hcs⟩ := hcall rfl h; exact .inr ⟨q, .inl hq, hcs⟩
  | alt_right h =>
  cases h with
  | alt_left h => obtain ⟨q, hq, hcs⟩ := hcall rfl h; exact .inr ⟨q, .inr (.inl hq), hcs⟩
  | alt_right h => obtain ⟨q, hq, hcs⟩ := hcall rfl h; exact .inr ⟨q, .inr (.inr hq), hcs⟩

theorem parseAction_built {p : Tree} (h : Is .action p) :
    Built Ast.Action.Writable (InRange [p]) (parseAction p) := by
  rw [h.inRange (by decide)]
  rcases h.action with ⟨hcs, htext⟩ | ⟨q, hq, hcs⟩
  · have : ∃ a : Ast.Action, parseAction p = .ok a ∧ a.Writable := by
      simp only [List.mem_cons, List.not_mem_nil, or_false] at htext
      simp only [parseAction, hcs]
      rcases htext with h | h | h | h | h <;> rw [h]
      · exact ⟨.allow, rfl, trivial⟩
      · exact ⟨.killProcess, rfl, trivial⟩
      · exact ⟨.kill, rfl, trivial⟩
      · exact ⟨.log, rfl, trivial⟩
      · exact ⟨.userNotif, rfl, trivial⟩
    obtain ⟨a, ha, hw⟩ := this
    rw [ha, hcs]
    exact (Built.pure hw).congr (by simp)
  · have hvalue {r : Rule} {s : String} {f : Ast.Expr → Ast.Action} (hne : r ≠ .number)
        (hbody : r.body = Rule.tilde [Rule.word s, Rule.word "(", .call .expr, Rule.word ")"])
        (hq : Is r q) (hf : ∀ e, (f e).Writable ↔ e.Writable) :
        Built Ast.Action.Writable (InRange p.children)
          (next q.children >>= fun x => parseExpr x.1 >>= fun e => pure (f e)) := by
      obtain ⟨e, he, hcs'⟩ := hq.valued hbody
      rw [hcs, hq.inRange hne, hcs', next, ok_bind]
      exact (parseExpr_built he).map fun v hv => ⟨f v, rfl, (hf v).2 hv⟩
    rcases hq with hq | hq | hq
    · have := hvalue (f := .errno) (by decide) rfl hq fun _ => Iff.rfl
      simpa only [parseAction, hcs, hq.rule_eq] using this
    · have := hvalue (f := .trap) (by decide) rfl hq fun _ => Iff.rfl
      simpa only [parseAction, hcs, hq.rule_eq] using this
    · have := hvalue (f := .trace) (by decide) rfl hq fun _ => Iff.rfl
      simpa only [parseAction, hcs, hq.rule_eq] using this

theorem mapM_built {α : Type} {Q : α → Prop} {P : Tree → Prop} {f : Tree → Result α}
    (hf : ∀ p, P p → Built Q (InRange [p]) (f p)) : ∀ {ps : List Tree}, (∀ p ∈ ps, P p) →
    Built (fun l => l.length = ps.length ∧ ∀ x ∈ l, Q x) (InRange ps) (ps.mapM f)
  | [], _ => (Built.pure (a := []) (by simp)).congr (by simp)
  | p :: ps, h => by
    simp only [List.mem_cons, forall_eq_or_imp] at h
    rw [List.mapM_cons, inRange_cons]
    refine (hf p h.1).bind fun x hx => ?_
    refine (mapM_built hf h.2).map fun l hl => ?_
    exact ⟨x :: l, rfl, by simp [hl.1], by simpa using ⟨hx, hl.2⟩⟩

theorem inRange_idents : ∀ {ps : List Tree}, (∀ p ∈ ps, Is .ident p) → InRange ps
  | [], _ => inRange_nil
  | p :: ps, h => by
    simp only [List.mem_cons, forall_eq_or_imp] at h
    exact inRange_cons.2 ⟨h.1.inRange_ident, inRange_idents h.2⟩

theorem entryItems_filter_built {rule : Ast.SyscallRule} (hrule : rule.Writable)
    {filter : Option Tree} (h : ∀ q ∈ filter, Is .filterBlock q) :
    Built Ast.SyscallRule.Writable (InRange filter.toList) (entryItems rule filter.toList) := by
  cases filter with
  | none => exact (Built.pure hrule).congr (by simp)
  | some q =>
    have hq := h q rfl
    obtain ⟨e, he, hcs⟩ := hq.filterBlock
    simp only [Option.toList_some, entryItems, hq.rule_eq, hcs, next, ok_bind]
    refine ((parseBoolExpr_built he).map fun f hf => ?_).congr ?_
    · exact ⟨{ rule with filter := some f }, rfl, hrule.name, hrule.args, by simpa⟩
    · rw [hq.inRange (by decide), hcs]

theorem parseSyscallEntry_built {p : Tree} (h : Is .syscallEntry p) :
    Built Ast.SyscallRule.Writable (InRange [p]) (parseSyscallEntry p) := by
  obtain ⟨name, decl, filter, hname, hdecl, hfilter, hcs⟩ := h.syscallEntry
  have hw : (Ast.SyscallRule.mk (asStr name) (spanOf name) [] none).Writable :=
    ⟨writable_ident hname, by simp, by simp⟩
  simp only [parseSyscallEntry, hcs, next, ok_bind]
  rw [h.inRange (by decide), hcs, inRange_cons]
  refine Built.congr ?_ (and_iff_right hname.inRange_ident).symm
  cases decl with
  | none => simpa using entryItems_filter_built hw hfilter
  | some q =>
    have hq := hdecl q rfl
    obtain ⟨x, xs, hx, hxs, hcs'⟩ := hq.argDecl
    have hargs : ∀ y ∈ q.children, Is .ident y := by
      rw [hcs']
      simpa using ⟨hx, hxs⟩
    have hw' :
        (Ast.SyscallRule.mk (asStr name) (spanOf name) (q.children.map asStr) none).Writable :=
      ⟨writable_ident hname, by simpa using fun y hy => writable_ident (hargs y hy), by simp⟩
    simp only [Option.toList_some, List.singleton_append, entryItems, hq.rule_eq]
    refine (entryItems_filter_built hw' hfilter).congr ?_
    rw [inRange_cons, hq.inRange (by decide)]
    exact (and_iff_right (inRange_idents hargs)).symm

theorem parseActionBlock_built {p : Tree} (h : Is .actionBlock p) :
    Built Ast.ActionBlock.Writable (InRange [p]) (parseActionBlock p) := by
  obtain ⟨action, rules, haction, hrules, hcs⟩ := h.actionBlock
  obtain ⟨e, es, he, hes, hcs'⟩ := hrules.syscallRules
  simp only [parseActionBlock, hcs, next, ok_bind]
  rw [h.inRange (by decide), hcs, inRange_cons (p := action), hrules.inRange (by decide)]
  refine (parseAction_built haction).bind fun a ha => ?_
  have hlist := mapM_built (P := Is .syscallEntry) (fun _ => parseSyscallEntry_built)
    (show ∀ q ∈ rules.children, Is .syscallEntry q by rw [hcs']; simpa using ⟨he, hes⟩)
  refine hlist.map fun l hl => ⟨⟨a, l⟩, rfl, ha, ?_, hl.2⟩
  rintro rfl
  simp [hcs'] at hl

theorem policyItems_built : ∀ {ps : List Tree}, (∀ q ∈ ps, Is .actionBlock q ∨ Is .useRef q) →
    Built (fun es => ∀ e ∈ es, Ast.PolicyEntry.Writable e) (InRange ps) (policyItems ps)
  | [], _ => (Built.pure (a := []) (by simp)).congr (by simp)
  | p :: ps, h => by
    simp only [List.mem_cons, forall_eq_or_imp] at h
    rw [inRange_cons]
    have htail := policyItems_built h.2
    rcases h.1 with hp | hp
    · simp only [policyItems, hp.rule_eq]
      refine (parseActionBlock_built hp).bind fun block hblock => htail.map fun es hes => ?_
      exact ⟨.actionBlock block :: es, rfl, by simpa using ⟨hblock, hes⟩⟩
    · obtain ⟨name, hname, hcs⟩ := hp.useRef
      simp only [policyItems, hp.rule_eq, hcs, next, ok_bind]
      refine (htail.map fun es hes => ?_).congr ?_
      · exact ⟨.useRef (asStr name) (spanOf name) :: es, rfl,
          by simpa using ⟨writable_ident hname, hes⟩⟩
      · rw [hp.inRange (by decide), hcs]
        exact (and_iff_right hname.inRange_ident).symm

theorem parsePolicyBlock_built {p : Tree} (h : Is .policy p) :
    Built Ast.Policy.Writable (InRange [p]) (parsePolicyBlock p) := by
  obtain ⟨name, items, hname, hitems, hcs⟩ := h.policy
  simp only [parsePolicyBlock, hcs, next, ok_bind]
  rw [h.inRange (by decide), hcs, inRange_cons]
  refine Built.congr ?_ (and_iff_right hname.inRange_ident).symm
  exact (policyItems_built hitems).map fun es hes => ⟨⟨asStr name, es⟩, rfl,
    writable_ident hname, hes⟩

theorem useNames_built {action : Tree} (haction : Is .action action) :
    ∀ {names : List Tree} {acc : List (String × Span)}, (∀ q ∈ names, Is .ident q) →
    acc ≠ [] ∨ names ≠ [] → (∀ p ∈ acc, IsIdent p.1.toList) →
    Built Ast.UseStmt.Writable (InRange [action]) (useNames acc (names ++ [action]))
  | [], acc, _, hne, hacc => by
    simp only [List.nil_append, useNames, haction.rule_eq]
    refine (parseAction_built haction).map fun a ha => ⟨⟨acc, a⟩, rfl, ?_, hacc, ha⟩
    simpa using hne
  | q :: names, acc, h, _, hacc => by
    simp only [List.mem_cons, forall_eq_or_imp] at h
    simp only [List.cons_append, useNames, h.1.rule_eq]
    refine useNames_built haction h.2 (.inl (by simp)) ?_
    simp only [List.mem_append, List.mem_singleton]
    rintro x (hx | rfl)
    · exact hacc x hx
    · exact writable_ident h.1

theorem parseUseStmt_built {p : Tree} (h : Is .useStmt p) :
    Built Ast.UseStmt.Writable (InRange [p]) (parseUseStmt p) := by
  obtain ⟨name, names, action, hname, hnames, haction, hcs⟩ := h.useStmt
  have hall : ∀ q ∈ name :: names, Is .ident q := by simpa using ⟨hname, hnames⟩
  rw [h.inRange (by decide), parseUseStmt, hcs, ← List.cons_append, inRange_append]
  exact (useNames_built haction hall (.inr (by simp)) (by simp)).congr
    (and_iff_right (inRange_idents hall)).symm

/-! ## Files -/

section File

variable {quoted : List Char → Prop}

/-- What is known of the quoted names below the tokens. -/
def Quotes (quoted : List Char → Prop) (ps : List Tree) : Prop :=
  ∀ q ∈ nodesOf ps, q.rule = .stringLiteral → ∀ s, q.text = '"' :: s ++ ['"'] → quoted s

theorem quotes_cons {p : Tree} {ps : List Tree} (h : Quotes quoted (p :: ps)) :
    Quotes quoted [p] ∧ Quotes quoted ps := by
  simpa only [Quotes, nodesOf, List.append_nil, List.mem_append, or_imp, forall_and] using h

theorem quotes_append : ∀ {ps qs : List Tree}, Quotes quoted (ps ++ qs) → Quotes quoted ps
  | [], _, _ => by simp [Quotes, nodesOf]
  | p :: ps, qs, h => by
    have h' := quotes_cons h
    have hps := quotes_append h'.2
    intro q hq
    simp only [nodesOf, List.mem_append] at hq
    rcases hq with hq | hq
    · exact h'.1 q (by simpa [nodesOf] using hq)
    · exact hps q hq

theorem quotes_children {p : Tree} (h : Quotes quoted [p]) : Quotes quoted p.children := by
  obtain ⟨r, n, t, cs⟩ := p
  intro q hq
  exact h q (by simp only [nodesOf, Pair.nodes, List.append_nil]; exact List.mem_cons_of_mem _ hq)

theorem quotes_self {p : Tree} (h : Quotes quoted [p]) (hr : p.rule = .stringLiteral)
    {s : List Char} (hs : p.text = '"' :: s ++ ['"']) : quoted s := by
  obtain ⟨r, n, t, cs⟩ := p
  exact h _ (by simp [nodesOf, Pair.nodes]) hr s hs

theorem fileItems_built {eoi : Tree} (heoi : Is .eoi eoi) : ∀ {items : List Tree}
    {file : Ast.PolicyFile}, (∀ q ∈ items, Is .includeDirective q ∨ Is .define q ∨ Is .policy q ∨
      Is .useStmt q) → Quotes quoted items → file.Writable quoted →
    Built (Ast.PolicyFile.Writable quoted) (InRange items) (fileItems file (items ++ [eoi]))
  | [], file, _, _, hfile => by
    simp only [List.nil_append, fileItems, heoi.rule_eq]
    exact (Built.pure hfile).congr (by simp)
  | q :: items, file, h, hquotes, hfile => by
    simp only [List.mem_cons, forall_eq_or_imp] at h
    have hq' := quotes_cons hquotes
    have tail {file' : Ast.PolicyFile} (hw : file'.Writable quoted) :=
      fileItems_built heoi h.2 hq'.2 hw
    rw [inRange_cons, List.cons_append]
    rcases h.1 with hq | hq | hq | hq
    · obtain ⟨lit, hlit, hcs⟩ := hq.includeDirective
      obtain ⟨s, hs⟩ := hlit.stringLiteral
      have hlitq := quotes_self (hcs ▸ quotes_children hq'.1) hlit.rule_eq hs
      simp only [fileItems, hq.rule_eq, hcs, next, ok_bind, hs, stripQuotes_eq]
      refine Built.congr (tail ⟨?_, hfile.defines, hfile.policies, hfile.useStmt⟩) ?_
      · simp only [List.mem_append, List.mem_singleton]
        rintro i (hi | rfl)
        · exact hfile.includes i hi
        · simpa using hlitq
      · rw [hq.inRange (by decide), hcs]
        exact (and_iff_right (hlit.inRange_leaf (by decide) (by decide))).symm
    · obtain ⟨name, value, hname, hvalue, hcs⟩ := hq.define
      simp only [fileItems, hq.rule_eq, hcs, next, ok_bind]
      rw [hq.inRange (by decide), hcs, inRange_cons (p := name), and_iff_right hname.inRange_ident]
      refine (parseExpr_built hvalue).bind fun v hv => tail ⟨hfile.includes, ?_, hfile.policies,
        hfile.useStmt⟩
      simp only [List.mem_append, List.mem_singleton]
      rintro d (hd | rfl)
      · exact hfile.defines d hd
      · exact ⟨writable_ident hname, hv⟩
    · simp only [fileItems, hq.rule_eq]
      refine (parsePolicyBlock_built hq).bind fun policy hpolicy => tail ⟨hfile.includes,
        hfile.defines, ?_, hfile.useStmt⟩
      simp only [List.mem_append, List.mem_singleton]
      rintro p (hp | rfl)
      · exact hfile.policies p hp
      · exact hpolicy
    · simp only [fileItems, hq.rule_eq]
      exact (parseUseStmt_built hq).bind fun u hu => tail ⟨hfile.includes, hfile.defines,
        hfile.policies, by simpa⟩

theorem buildFile_built {tokens : List Tree} {t : List Char}
    (h : Yields grammar (.call .file) t tokens) (hquotes : Quotes quoted tokens) :
    Built (Ast.PolicyFile.Writable quoted) (InRange tokens) (buildFile tokens) := by
  obtain ⟨p, hp, rfl⟩ := (toks_rule (r := .file) rfl).1 ⟨t, h⟩
  obtain ⟨items, eoi, hitems, heoi, hcs⟩ := hp.file
  have hitemsq := quotes_append (hcs ▸ quotes_children hquotes)
  rw [hp.inRange (by decide), hcs, inRange_append]
  simp only [buildFile, next, ok_bind, hcs]
  refine (fileItems_built heoi hitems hitemsq ⟨?_, ?_, ?_, ?_⟩).congr ?_
  · simp
  · simp
  · simp
  · simp
  · exact (and_iff_left (heoi.inRange_leaf (by decide) (by decide))).symm

end File

end Pnut.Kafel
