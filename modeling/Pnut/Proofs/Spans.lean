import Pnut.Kafel.Builders
import Pnut.Kafel.Diagnostic

/-!
# The spans of a syntax tree

The builders return no error, and put no spans into a tree but those of the tokens it is made of.
-/

namespace Pnut.Kafel

open Peg

/-! ## The spans of a syntax tree -/

namespace Ast

mutual

def Expr.spans : Expr → List Span
  | .number _ => []
  | .ident _ span => [span]
  | .bitOr parts => Expr.spansOfParts parts

def Expr.spansOfParts : List Expr → List Span
  | [] => []
  | e :: es => e.spans ++ Expr.spansOfParts es

end

def Action.spans : Action → List Span
  | .errno value | .trap value | .trace value => value.spans
  | _ => []

def CmpLhs.spans : CmpLhs → List Span
  | .arg _ span => [span]
  | .masked _ span mask => span :: mask.spans

def BoolExpr.spans : BoolExpr → List Span
  | .compare lhs _ rhs => lhs.spans ++ rhs.spans
  | .and a b | .or a b => a.spans ++ b.spans
  | .not inner => inner.spans
  | .literal _ => []

def SyscallRule.spans (rule : SyscallRule) : List Span :=
  rule.nameSpan :: (rule.filter.map BoolExpr.spans).getD []

def ActionBlock.spans (block : ActionBlock) : List Span :=
  block.action.spans ++ block.rules.flatMap SyscallRule.spans

def PolicyEntry.spans : PolicyEntry → List Span
  | .actionBlock block => block.spans
  | .useRef _ span => [span]

def Policy.spans (policy : Policy) : List Span := policy.entries.flatMap PolicyEntry.spans

def UseStmt.spans (useStmt : UseStmt) : List Span :=
  useStmt.policies.map (·.2) ++ useStmt.defaultAction.spans

/-- All spans of the file are such spans. -/
structure PolicyFile.Spanned (P : Span → Prop) (file : PolicyFile) : Prop where
  includes : ∀ i ∈ file.includes, P i.span
  defines : ∀ e ∈ file.defines.map (·.2), ∀ s ∈ e.spans, P s
  policies : ∀ p ∈ file.policies, ∀ s ∈ p.spans, P s
  useStmt : ∀ u ∈ file.useStmt, ∀ s ∈ u.spans, P s

end Ast

/-! ## Runs -/

/-- The result has `Q`, and the span of the error, if there is one, has `P`. -/
structure Blames {α : Type} (P : Span → Prop) (Q : α → Prop) (r : Result α) : Prop where
  ok : ∀ a, r = .ok a → Q a
  error : ∀ err span, r = errWith err → err.span = some span → P span

section Blames

variable {α β : Type} {P : Span → Prop} {Q : α → Prop} {Q' : β → Prop}

theorem blames_ok {a : α} (h : Q a) : Blames P Q (.ok a : Result α) :=
  ⟨fun _ heq => Except.ok.inj heq ▸ h, nofun⟩

theorem blames_panicWith {message : String} : Blames P Q (panicWith message) := ⟨nofun, nofun⟩

theorem blames_errWith {err : Error} (h : ∀ span, err.span = some span → P span) :
    Blames P Q (errWith err) := by
  refine ⟨nofun, fun err' span heq hspan => h span ?_⟩
  cases heq
  exact hspan

theorem blames_at {span : Span} (h : P span) (f : Option Span → Error)
    (hf : ∀ s, (f s).span = s) : Blames P Q (errWith (f (some span))) :=
  blames_errWith fun s heq => by
    rw [hf] at heq
    exact Option.some.inj heq ▸ h

theorem Blames.bind {x : Result α} {f : α → Result β} (h : Blames P Q x)
    (hf : ∀ a, Q a → Blames P Q' (f a)) : Blames P Q' (x >>= f) := by
  rcases x with e | a
  · exact ⟨nofun, fun err span heq => h.error err span (by cases heq; rfl)⟩
  · exact hf a (h.ok a rfl)

theorem Blames.mono {Q' : α → Prop} {r : Result α} (h : Blames P Q r) (hQ : ∀ a, Q a → Q' a) :
    Blames P Q' r :=
  ⟨fun a ha => hQ a (h.ok a ha), h.error⟩

theorem Blames.self {r : Result α} (h : Blames P Q r) : Blames P (fun a => r = .ok a ∧ Q a) r :=
  ⟨fun a ha => ⟨ha, h.ok a ha⟩, h.error⟩

theorem blames_mapM {f : α → Result β} :
    ∀ {l : List α}, (∀ a ∈ l, Blames P Q' (f a)) → Blames P (fun r => ∀ y ∈ r, Q' y) (l.mapM f)
  | [], _ => blames_ok (by simp)
  | a :: l, h => by
    rw [List.mapM_cons]
    refine (h a (by simp)).bind fun y hy => (blames_mapM fun a ha => h a (by simp [ha])).bind
      fun ys hys => blames_ok ?_
    simpa using ⟨hy, hys⟩

end Blames

/-! ## Builders -/

/-- The spans of the tokens, and of those inside, are such spans. -/
def Marked (P : Span → Prop) (ps : List Tree) : Prop := ∀ q ∈ nodesOf ps, P (spanOf q)

section Builders

variable {P : Span → Prop} {p : Tree} {ps : List Tree}

theorem marked_cons : Marked P (p :: ps) ↔ Marked P [p] ∧ Marked P ps := by
  simp only [Marked, nodesOf, List.append_nil, List.mem_append, or_imp, forall_and]

theorem Marked.self (h : Marked P [p]) : P (spanOf p) := by
  obtain ⟨r, n, t, cs⟩ := p
  exact h _ (by simp [nodesOf, Pair.nodes])

theorem Marked.children (h : Marked P [p]) : Marked P p.children := by
  obtain ⟨r, n, t, cs⟩ := p
  intro q hq
  exact h q (by simp only [nodesOf, Pair.nodes, List.append_nil]; exact List.mem_cons_of_mem _ hq)

theorem Marked.of_mem : ∀ {ps : List Tree}, Marked P ps → ∀ p ∈ ps, Marked P [p]
  | q :: ps, h, p, hp => by
    rcases List.mem_cons.1 hp with rfl | hp
    · exact (marked_cons.1 h).1
    · exact (marked_cons.1 h).2.of_mem p hp

theorem next_blames (h : Marked P ps) :
    Blames P (fun a => Marked P [a.1] ∧ Marked P a.2) (next ps) := by
  rcases ps with _ | ⟨p, ps⟩
  · exact blames_panicWith
  · exact blames_ok (marked_cons.1 h)

theorem parseNumber_blames (s : List Char) : Blames P (fun _ => True) (parseNumber s) := by
  unfold parseNumber
  extract_lets value
  cases value with
  | none => exact blames_panicWith
  | some n => exact blames_ok trivial

mutual

theorem parseExpr_blames : ∀ {p : Tree}, Marked P [p] →
    Blames P (fun e => ∀ s ∈ e.spans, P s) (parseExpr p)
  | .mk r n t cs, h => by
    unfold parseExpr
    have hchildren : Marked P cs := h.children
    refine (parseExprAtoms_blames hchildren).bind fun atoms hatoms => ?_
    split
    · exact blames_ok (by simpa [Ast.Expr.spansOfParts] using hatoms)
    · exact blames_ok hatoms

theorem parseExprAtoms_blames : ∀ {ps : List Tree}, Marked P ps →
    Blames P (fun es => ∀ s ∈ Ast.Expr.spansOfParts es, P s) (parseExprAtoms ps)
  | [], _ => by
    unfold parseExprAtoms
    exact blames_ok (by simp [Ast.Expr.spansOfParts])
  | p :: ps, h => by
    unfold parseExprAtoms
    refine (parseExprAtom_blames (marked_cons.1 h).1).bind fun e he =>
      (parseExprAtoms_blames (marked_cons.1 h).2).bind fun es hes => blames_ok ?_
    simp only [Ast.Expr.spansOfParts, List.forall_mem_append]
    exact ⟨he, hes⟩

theorem parseExprAtom_blames : ∀ {p : Tree}, Marked P [p] →
    Blames P (fun e => ∀ s ∈ e.spans, P s) (parseExprAtom p)
  | .mk _ _ _ [], _ => by
    unfold parseExprAtom
    exact blames_panicWith
  | .mk r n t (inner :: cs), h => by
    have hinner : Marked P [inner] := (marked_cons.1 h.children).1
    unfold parseExprAtom
    split
    · exact (parseNumber_blames _).bind fun v _ => blames_ok (by simp [Ast.Expr.spans])
    · exact blames_ok (by simpa [Ast.Expr.spans] using hinner.self)
    · exact parseExpr_blames hinner
    · exact blames_panicWith

end

theorem parseCmpOp_blames (p : Tree) : Blames P (fun _ => True) (parseCmpOp p) := by
  unfold parseCmpOp
  split
  all_goals first | exact blames_ok trivial | exact blames_panicWith

theorem parseCmpLhs_blames (h : Marked P [p]) :
    Blames P (fun lhs => ∀ s ∈ lhs.spans, P s) (parseCmpLhs p) := by
  unfold parseCmpLhs
  refine (next_blames h.children).bind fun ⟨inner, _⟩ ⟨hinner, _⟩ => ?_
  simp only
  split
  · refine (next_blames hinner.children).bind fun ⟨name, parts⟩ ⟨hname, hparts⟩ => ?_
    refine (next_blames hparts).bind fun ⟨mask, _⟩ ⟨hmask, _⟩ => ?_
    refine (parseExpr_blames hmask).bind fun e he => blames_ok ?_
    exact List.forall_mem_cons.2 ⟨hname.self, he⟩
  · exact blames_ok (List.forall_mem_singleton.2 hinner.self)
  · exact blames_panicWith

theorem parseComparison_blames (h : Marked P [p]) :
    Blames P (fun e => ∀ s ∈ e.spans, P s) (parseComparison p) := by
  unfold parseComparison
  refine (next_blames h.children).bind fun ⟨lhsPair, inner⟩ ⟨hlhs, hinner⟩ => ?_
  refine (parseCmpLhs_blames hlhs).bind fun lhs hlhs => ?_
  refine (next_blames hinner).bind fun ⟨opPair, inner⟩ ⟨_, hinner⟩ => ?_
  refine (parseCmpOp_blames opPair).bind fun op _ => ?_
  refine (next_blames hinner).bind fun ⟨rhsPair, _⟩ ⟨hrhs, _⟩ => ?_
  refine (next_blames hrhs.children).bind fun ⟨exprPair, _⟩ ⟨hexpr, _⟩ => ?_
  refine (parseExpr_blames hexpr).bind fun rhs hrhs => blames_ok ?_
  exact List.forall_mem_append.2 ⟨hlhs, hrhs⟩

mutual

theorem parseBoolExpr_blames : ∀ {p : Tree}, Marked P [p] →
    Blames P (fun e => ∀ s ∈ e.spans, P s) (parseBoolExpr p)
  | .mk _ _ _ [], _ => by
    unfold parseBoolExpr
    exact blames_panicWith
  | .mk r n t (p :: ps), h => by
    obtain ⟨hp, hps⟩ := marked_cons.1 h.children
    unfold parseBoolExpr
    exact (parseOrExpr_blames hp).bind fun e he => orExprs_blames he hps

theorem orExprs_blames : ∀ {ps : List Tree} {e : Ast.BoolExpr}, (∀ s ∈ e.spans, P s) →
    Marked P ps → Blames P (fun e => ∀ s ∈ e.spans, P s) (orExprs e ps)
  | [], _, he, _ => by
    unfold orExprs
    exact blames_ok he
  | p :: ps, e, he, h => by
    obtain ⟨hp, hps⟩ := marked_cons.1 h
    unfold orExprs
    refine (parseOrExpr_blames hp).bind fun e' he' => orExprs_blames ?_ hps
    exact List.forall_mem_append.2 ⟨he, he'⟩

theorem parseOrExpr_blames : ∀ {p : Tree}, Marked P [p] →
    Blames P (fun e => ∀ s ∈ e.spans, P s) (parseOrExpr p)
  | .mk _ _ _ [], _ => by
    unfold parseOrExpr
    exact blames_panicWith
  | .mk r n t (p :: ps), h => by
    obtain ⟨hp, hps⟩ := marked_cons.1 h.children
    unfold parseOrExpr
    exact (parseAndExpr_blames hp).bind fun e he => andExprs_blames he hps

theorem andExprs_blames : ∀ {ps : List Tree} {e : Ast.BoolExpr}, (∀ s ∈ e.spans, P s) →
    Marked P ps → Blames P (fun e => ∀ s ∈ e.spans, P s) (andExprs e ps)
  | [], _, he, _ => by
    unfold andExprs
    exact blames_ok he
  | p :: ps, e, he, h => by
    obtain ⟨hp, hps⟩ := marked_cons.1 h
    unfold andExprs
    refine (parseAndExpr_blames hp).bind fun e' he' => andExprs_blames ?_ hps
    exact List.forall_mem_append.2 ⟨he, he'⟩

theorem parseAndExpr_blames : ∀ {p : Tree}, Marked P [p] →
    Blames P (fun e => ∀ s ∈ e.spans, P s) (parseAndExpr p)
  | .mk _ _ _ [], _ => by
    unfold parseAndExpr
    exact blames_panicWith
  | .mk r n t (p :: ps), h => by
    obtain ⟨hp, hps⟩ := marked_cons.1 h.children
    unfold parseAndExpr
    exact (parseNotExpr_blames hp).bind fun e he => notExprs_blames he hps

theorem notExprs_blames : ∀ {ps : List Tree} {e : Ast.BoolExpr}, (∀ s ∈ e.spans, P s) →
    Marked P ps → Blames P (fun e => ∀ s ∈ e.spans, P s) (notExprs e ps)
  | [], _, he, _ => by
    unfold notExprs
    exact blames_ok he
  | p :: ps, e, he, h => by
    obtain ⟨hp, hps⟩ := marked_cons.1 h
    unfold notExprs
    refine (parseNotExpr_blames hp).bind fun e' he' => notExprs_blames ?_ hps
    exact List.forall_mem_append.2 ⟨he, he'⟩

theorem parseNotExpr_blames : ∀ {p : Tree}, Marked P [p] →
    Blames P (fun e => ∀ s ∈ e.spans, P s) (parseNotExpr p)
  | .mk _ _ _ [], _ => by
    unfold parseNotExpr
    exact blames_panicWith
  | .mk r n t [child], h => by
    have hchild : Marked P [child] := h.children
    unfold parseNotExpr
    split
    · exact (parseNotExpr_blames hchild).bind fun e he => blames_ok he
    · exact parsePrimaryExpr_blames hchild
    · exact blames_panicWith
  | .mk _ _ _ (_ :: _ :: _), _ => by
    unfold parseNotExpr
    exact blames_panicWith

theorem parsePrimaryExpr_blames : ∀ {p : Tree}, Marked P [p] →
    Blames P (fun e => ∀ s ∈ e.spans, P s) (parsePrimaryExpr p)
  | .mk _ _ _ [], _ => by
    unfold parsePrimaryExpr
    exact blames_panicWith
  | .mk r n t (inner :: cs), h => by
    have hinner : Marked P [inner] := (marked_cons.1 h.children).1
    unfold parsePrimaryExpr
    split
    · exact parseBoolExpr_blames hinner
    · exact parseComparison_blames hinner
    · exact blames_panicWith

end

theorem parseAction_blames (h : Marked P [p]) :
    Blames P (fun a => ∀ s ∈ a.spans, P s) (parseAction p) := by
  have hvalue {inner : Tree} (hinner : Marked P [inner]) (f : Ast.Expr → Ast.Action)
      (hf : ∀ e, (f e).spans = e.spans) : Blames P (fun a => ∀ s ∈ a.spans, P s)
        (next inner.children >>= fun rest => parseExpr rest.1 >>= fun e => pure (f e)) := by
    refine (next_blames hinner.children).bind fun rest hrest => ?_
    refine (parseExpr_blames hrest.1).bind fun v hv => blames_ok ?_
    rwa [hf]
  unfold parseAction
  extract_lets keyword
  have hkeyword : Blames P (fun a => ∀ s ∈ a.spans, P s) keyword := by
    unfold keyword
    split
    all_goals first | exact blames_ok nofun | exact blames_panicWith
  split
  · exact hkeyword
  · rename_i inner cs hcs
    have hinner : Marked P [inner] := (marked_cons.1 (hcs ▸ h.children)).1
    split
    · exact hvalue hinner .errno fun _ => rfl
    · exact hvalue hinner .trap fun _ => rfl
    · exact hvalue hinner .trace fun _ => rfl
    · exact hkeyword

theorem entryItems_blames : ∀ {items : List Tree} {rule : Ast.SyscallRule},
    (∀ s ∈ rule.spans, P s) → Marked P items →
    Blames P (fun rule => ∀ s ∈ rule.spans, P s) (entryItems rule items)
  | [], _, hrule, _ => by
    unfold entryItems
    exact blames_ok hrule
  | item :: items, rule, hrule, h => by
    obtain ⟨hitem, hitems⟩ := marked_cons.1 h
    unfold entryItems
    split
    · exact entryItems_blames hrule hitems
    · refine (next_blames hitem.children).bind fun ⟨e, _⟩ ⟨he, _⟩ => ?_
      refine (parseBoolExpr_blames he).bind fun filter hfilter => entryItems_blames ?_ hitems
      exact List.forall_mem_cons.2 ⟨(List.forall_mem_cons.1 hrule).1, hfilter⟩
    · exact entryItems_blames hrule hitems

theorem parseSyscallEntry_blames (h : Marked P [p]) :
    Blames P (fun rule => ∀ s ∈ rule.spans, P s) (parseSyscallEntry p) := by
  unfold parseSyscallEntry
  refine (next_blames h.children).bind fun ⟨name, items⟩ ⟨hname, hitems⟩ => ?_
  exact entryItems_blames (List.forall_mem_singleton.2 hname.self) hitems

theorem parseActionBlock_blames (h : Marked P [p]) :
    Blames P (fun block => ∀ s ∈ block.spans, P s) (parseActionBlock p) := by
  unfold parseActionBlock
  refine (next_blames h.children).bind fun ⟨actionPair, inner⟩ ⟨haction, hinner⟩ => ?_
  refine (parseAction_blames haction).bind fun action haction => ?_
  refine (next_blames hinner).bind fun ⟨rulesPair, _⟩ ⟨hrules, _⟩ => ?_
  refine (blames_mapM fun q hq => parseSyscallEntry_blames (hrules.children.of_mem q hq)).bind
    fun rules hrules => blames_ok ?_
  refine List.forall_mem_append.2 ⟨haction, fun s hs => ?_⟩
  obtain ⟨rule, hrule, hs⟩ := List.mem_flatMap.1 hs
  exact hrules rule hrule s hs

theorem policyItems_blames : ∀ {items : List Tree}, Marked P items →
    Blames P (fun entries => ∀ entry ∈ entries, ∀ s ∈ entry.spans, P s) (policyItems items)
  | [], _ => by
    unfold policyItems
    exact blames_ok (by simp)
  | item :: items, h => by
    obtain ⟨hitem, hitems⟩ := marked_cons.1 h
    unfold policyItems
    split
    · refine (parseActionBlock_blames hitem).bind fun block hblock =>
        (policyItems_blames hitems).bind fun entries hentries => blames_ok ?_
      exact List.forall_mem_cons.2 ⟨hblock, hentries⟩
    · refine (next_blames hitem.children).bind fun ⟨name, _⟩ ⟨hname, _⟩ =>
        (policyItems_blames hitems).bind fun entries hentries => blames_ok ?_
      exact List.forall_mem_cons.2 ⟨List.forall_mem_singleton.2 hname.self, hentries⟩
    · exact policyItems_blames hitems

theorem parsePolicyBlock_blames (h : Marked P [p]) :
    Blames P (fun policy => ∀ s ∈ policy.spans, P s) (parsePolicyBlock p) := by
  unfold parsePolicyBlock
  refine (next_blames h.children).bind fun ⟨name, inner⟩ ⟨_, hinner⟩ => ?_
  refine (policyItems_blames hinner).bind fun entries hentries => blames_ok fun s hs => ?_
  obtain ⟨entry, hentry, hs⟩ := List.mem_flatMap.1 hs
  exact hentries entry hentry s hs

theorem useNames_blames : ∀ {ps : List Tree} {policies : List (String × Span)},
    (∀ policy ∈ policies, P policy.2) → Marked P ps →
    Blames P (fun useStmt => ∀ s ∈ useStmt.spans, P s) (useNames policies ps)
  | [], _, _, _ => by
    unfold useNames
    exact blames_panicWith
  | p :: ps, policies, hpolicies, h => by
    obtain ⟨hp, hps⟩ := marked_cons.1 h
    unfold useNames
    split
    · refine useNames_blames ?_ hps
      exact List.forall_mem_append.2 ⟨hpolicies, List.forall_mem_singleton.2 hp.self⟩
    · refine (parseAction_blames hp).bind fun action haction => blames_ok ?_
      exact List.forall_mem_append.2 ⟨List.forall_mem_map.2 hpolicies, haction⟩
    · exact useNames_blames hpolicies hps

theorem stripQuotes_blames (raw : List Char) : Blames P (fun _ => True) (stripQuotes raw) := by
  unfold stripQuotes
  split
  · split
    · split_ifs
      · exact blames_ok trivial
      · exact blames_panicWith
    · exact blames_panicWith
  · exact blames_panicWith

theorem fileItems_blames : ∀ {items : List Tree} {file : Ast.PolicyFile}, file.Spanned P →
    Marked P items → Blames P (Ast.PolicyFile.Spanned P) (fileItems file items)
  | [], file, hfile, _ => by
    unfold fileItems
    exact blames_ok hfile
  | item :: items, file, hfile, h => by
    obtain ⟨hitem, hitems⟩ := marked_cons.1 h
    unfold fileItems
    split
    · refine (next_blames hitem.children).bind fun ⟨lit, _⟩ _ => ?_
      refine (stripQuotes_blames _).bind fun filename _ => fileItems_blames ?_ hitems
      refine { hfile with includes := ?_ }
      exact List.forall_mem_append.2 ⟨hfile.includes, List.forall_mem_singleton.2 hitem.self⟩
    · refine (next_blames hitem.children).bind fun ⟨name, inner⟩ ⟨_, hinner⟩ => ?_
      refine (next_blames hinner).bind fun ⟨value, _⟩ ⟨hvalue, _⟩ => ?_
      refine (parseExpr_blames hvalue).bind fun e he => fileItems_blames ?_ hitems
      refine { hfile with defines := ?_ }
      rw [List.map_append]
      exact List.forall_mem_append.2 ⟨hfile.defines, List.forall_mem_singleton.2 he⟩
    · refine (parsePolicyBlock_blames hitem).bind fun policy hpolicy => fileItems_blames ?_ hitems
      refine { hfile with policies := ?_ }
      exact List.forall_mem_append.2 ⟨hfile.policies, List.forall_mem_singleton.2 hpolicy⟩
    · refine (useNames_blames (by simp) hitem.children).bind fun useStmt huse =>
        fileItems_blames ?_ hitems
      refine { hfile with useStmt := ?_ }
      rintro _ ⟨⟩
      exact huse
    · exact fileItems_blames hfile hitems

theorem buildFile_blames (h : Marked P ps) :
    Blames P (Ast.PolicyFile.Spanned P) (buildFile ps) := by
  unfold buildFile
  refine (next_blames h).bind fun ⟨file, _⟩ ⟨hfile, _⟩ => fileItems_blames ?_ hfile.children
  exact ⟨by simp, by simp, by simp, by simp⟩

end Builders

end Pnut.Kafel
