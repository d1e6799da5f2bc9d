import Pnut.Proofs.Includes
import Pnut.Proofs.Resolved
import Pnut.Proofs.Spans

/-!
# Where the span of an error comes from

Merging puts syntax trees together, and validation and resolution report the spans of a tree. So the
span of an error is that of a token of a text that was read, the place where such a text was
rejected, or one that the include resolver names.
-/

namespace Pnut.Kafel

open Peg

/-! ## Resolution -/

section Resolution

variable {P : Span → Prop}

section Defines

variable {define : String → Span → Table → Result (UInt64 × Table)}

mutual

theorem resolveDefineExpr_blames
    (hdefine : ∀ name span t, P span → Blames P (fun _ => True) (define name span t)) :
    ∀ {e : Ast.Expr} {t : Table}, (∀ s ∈ e.spans, P s) →
    Blames P (fun _ => True) (resolveDefineExpr define e t)
  | .number _, _, _ => by
    unfold resolveDefineExpr
    exact blames_ok trivial
  | .ident name span, t, h => by
    unfold resolveDefineExpr
    split
    · exact blames_ok trivial
    · exact hdefine name span t (List.forall_mem_singleton.1 h)
  | .bitOr parts, t, h => by
    unfold resolveDefineExpr
    exact resolveDefineParts_blames hdefine h

theorem resolveDefineParts_blames
    (hdefine : ∀ name span t, P span → Blames P (fun _ => True) (define name span t)) :
    ∀ {parts : List Ast.Expr} {acc : UInt64} {t : Table},
    (∀ s ∈ Ast.Expr.spansOfParts parts, P s) →
    Blames P (fun _ => True) (resolveDefineParts define acc parts t)
  | [], _, _, _ => by
    unfold resolveDefineParts
    exact blames_ok trivial
  | part :: parts, acc, t, h => by
    rw [Ast.Expr.spansOfParts, List.forall_mem_append] at h
    unfold resolveDefineParts
    exact (resolveDefineExpr_blames hdefine h.1).bind fun ⟨_, _⟩ _ =>
      resolveDefineParts_blames hdefine h.2

end

variable {raw : List (String × Ast.Expr)}

theorem resolveDefine_blames (hraw : ∀ e ∈ raw.map (·.2), ∀ s ∈ e.spans, P s) :
    ∀ (left : ℕ) (path : List String) (name : String) (span : Span) (t : Table), P span →
    Blames P (fun _ => True) (resolveDefine raw left path name span t) := by
  intro left
  induction left with
  | zero =>
    intro path name span t hspan
    have hself : Blames P (fun _ : UInt64 × Table => True)
        (errWith (.undefinedIdentifier name (some span))) :=
      blames_at hspan (.undefinedIdentifier name) fun _ => rfl
    unfold resolveDefine
    split_ifs
    · exact hself
    · split
      · exact hself
      · exact blames_panicWith
      · contradiction
  | succ left ih =>
    intro path name span t hspan
    have hself : Blames P (fun _ : UInt64 × Table => True)
        (errWith (.undefinedIdentifier name (some span))) :=
      blames_at hspan (.undefinedIdentifier name) fun _ => rfl
    unfold resolveDefine
    split_ifs
    · exact hself
    · split
      · exact hself
      · contradiction
      · rename_i e left' hlookup hleft
        obtain rfl : left = left' := Nat.succ.inj hleft
        exact (resolveDefineExpr_blames (ih _) (hraw e (mem_of_lookup hlookup))).bind
          fun ⟨_, _⟩ _ => blames_ok trivial

theorem resolveDefines_blames (hraw : ∀ e ∈ raw.map (·.2), ∀ s ∈ e.spans, P s) {left : ℕ} :
    ∀ {rest : List (String × Ast.Expr)} {t : Table}, (∀ e ∈ rest.map (·.2), ∀ s ∈ e.spans, P s) →
    Blames P (fun _ => True) (resolveDefines raw left rest t)
  | [], _, _ => by
    unfold resolveDefines
    exact blames_ok trivial
  | (name, e) :: rest, t, h => by
    obtain ⟨he, hrest⟩ := List.forall_mem_cons.1 h
    unfold resolveDefines
    split
    · exact resolveDefines_blames hraw hrest
    · exact (resolveDefineExpr_blames (resolveDefine_blames hraw left []) he).bind
        fun ⟨_, _⟩ _ => resolveDefines_blames hraw hrest

end Defines

theorem new_blames {file : Ast.PolicyFile} (h : file.Spanned P) :
    Blames P (fun r => ∀ p ∈ r.policies.map (·.2), ∀ s ∈ p.spans, P s) (Resolver.new file) := by
  unfold Resolver.new
  refine (resolveDefines_blames ?_ h.defines).bind fun defines _ => blames_ok ?_
  · simpa using h.defines
  · simpa using h.policies

namespace Resolver

variable {r : Resolver} {argMap : List (String × UInt8)}

mutual

theorem resolveExpr_blames : ∀ {e : Ast.Expr}, (∀ s ∈ e.spans, P s) →
    Blames P (fun _ => True) (r.resolveExpr argMap e)
  | .number _, _ => by
    unfold resolveExpr
    exact blames_ok trivial
  | .ident name span, h => by
    unfold resolveExpr
    split
    · exact blames_ok trivial
    · split
      · exact blames_ok trivial
      · exact blames_at (List.forall_mem_singleton.1 h) (.undefinedIdentifier name) fun _ => rfl
  | .bitOr parts, h => by
    unfold resolveExpr
    refine (resolveExprs_blames h).bind fun resolved _ => ?_
    split <;> exact blames_ok trivial

theorem resolveExprs_blames : ∀ {es : List Ast.Expr}, (∀ s ∈ Ast.Expr.spansOfParts es, P s) →
    Blames P (fun _ => True) (r.resolveExprs argMap es)
  | [], _ => by
    unfold resolveExprs
    exact blames_ok trivial
  | e :: es, h => by
    rw [Ast.Expr.spansOfParts, List.forall_mem_append] at h
    unfold resolveExprs
    exact (resolveExpr_blames h.1).bind fun _ _ => (resolveExprs_blames h.2).bind
      fun _ _ => blames_ok trivial

end

theorem resolveBoolExpr_blames {syscall : String} : ∀ {e : Ast.BoolExpr},
    (∀ s ∈ e.spans, P s) → Blames P (fun _ => True) (r.resolveBoolExpr argMap syscall e)
  | .compare lhs op rhs, h => by
    rw [Ast.BoolExpr.spans, List.forall_mem_append] at h
    unfold resolveBoolExpr
    refine (resolveExpr_blames h.2).bind fun _ _ => ?_
    split
    · rename_i name span
      have hspan : P span := List.forall_mem_singleton.1 h.1
      split
      · exact blames_ok trivial
      · split
        · exact blames_ok trivial
        · exact blames_at hspan (.undeclaredArgument name syscall) fun _ => rfl
    · rename_i name span mask
      obtain ⟨hspan, hmask⟩ := List.forall_mem_cons.1 h.1
      split
      · exact blames_at hspan (.undeclaredArgument name syscall) fun _ => rfl
      · exact (resolveExpr_blames hmask).bind fun _ _ => blames_ok trivial
  | .and a b, h | .or a b, h => by
    rw [Ast.BoolExpr.spans, List.forall_mem_append] at h
    unfold resolveBoolExpr
    exact (resolveBoolExpr_blames h.1).bind fun _ _ => (resolveBoolExpr_blames h.2).bind
      fun _ _ => blames_ok trivial
  | .not inner, h => by
    unfold resolveBoolExpr
    exact (resolveBoolExpr_blames (e := inner) h).bind fun _ _ => blames_ok trivial
  | .literal _, _ => by
    unfold resolveBoolExpr
    exact blames_ok trivial

mutual

theorem resolveActionValue_blames : ∀ {e : Ast.Expr}, (∀ s ∈ e.spans, P s) →
    Blames P (fun _ => True) (r.resolveActionValue e)
  | .number _, _ => by
    unfold resolveActionValue
    exact blames_ok trivial
  | .ident name span, h => by
    unfold resolveActionValue
    split
    · exact blames_ok trivial
    · exact blames_at (List.forall_mem_singleton.1 h) (.undefinedIdentifier name) fun _ => rfl
  | .bitOr parts, h => by
    unfold resolveActionValue
    exact (resolveActionParts_blames h).bind fun _ _ => blames_ok trivial

theorem resolveActionParts_blames : ∀ {parts : List Ast.Expr} {acc : UInt64},
    (∀ s ∈ Ast.Expr.spansOfParts parts, P s) →
    Blames P (fun _ => True) (r.resolveActionParts acc parts)
  | [], _, _ => by
    unfold resolveActionParts
    exact blames_ok trivial
  | part :: parts, acc, h => by
    rw [Ast.Expr.spansOfParts, List.forall_mem_append] at h
    unfold resolveActionParts
    exact (resolveActionValue_blames h.1).bind fun _ _ => resolveActionParts_blames h.2

end

theorem resolveAction_blames {action : Ast.Action} (h : ∀ s ∈ action.spans, P s) :
    Blames P (fun _ => True) (r.resolveAction action) := by
  unfold resolveAction
  cases action with
  | errno value | trap value | trace value =>
    exact (resolveActionValue_blames h).bind fun _ _ => blames_ok trivial
  | _ => exact blames_ok trivial

theorem resolveName_blames {rule : Ast.SyscallRule} (h : P rule.nameSpan) :
    Blames P (fun _ => True) (resolveName rule) := by
  unfold resolveName resolveSyscall
  rcases syscallTable.lookup rule.name with _ | nr
  · exact blames_at h (.unknownSyscall rule.name) fun _ => rfl
  · exact blames_ok trivial

theorem resolveRule_blames {action : Action} {rule : Ast.SyscallRule}
    (h : ∀ s ∈ rule.spans, P s) : Blames P (fun _ => True) (r.resolveRule action rule) := by
  obtain ⟨hname, hfilter⟩ := List.forall_mem_cons.1 h
  unfold resolveRule
  refine (resolveName_blames hname).bind fun _ _ => ?_
  split
  · rename_i filter heq
    rw [heq] at hfilter
    exact (resolveBoolExpr_blames hfilter).bind fun _ _ => blames_ok trivial
  · exact blames_ok trivial

theorem resolveActionBlock_blames {block : Ast.ActionBlock} {action : Action}
    (h : ∀ s ∈ block.spans, P s) :
    Blames P (fun _ => True) (r.resolveActionBlock block action) := by
  have hrules : Blames P (fun entries => ∀ entry ∈ entries, True)
      (block.rules.mapM (r.resolveRule action)) := blames_mapM fun rule hrule =>
    resolveRule_blames fun s hs =>
      h s (List.mem_append_right _ (List.mem_flatMap.2 ⟨rule, hrule, hs⟩))
  exact hrules.mono fun _ _ => trivial

theorem flattenEntries_blames
    {flatten : String → Span → Result (List (Action × List PolicyEntry))}
    (hflatten : ∀ name span, P span → Blames P (fun _ => True) (flatten name span)) :
    ∀ {entries : List Ast.PolicyEntry}, (∀ entry ∈ entries, ∀ s ∈ entry.spans, P s) →
    Blames P (fun _ => True) (r.flattenEntries flatten entries)
  | [], _ => by
    unfold flattenEntries
    exact blames_ok trivial
  | .actionBlock block :: entries, h => by
    obtain ⟨hblock, hentries⟩ := List.forall_mem_cons.1 h
    have haction := (List.forall_mem_append.1 hblock).1
    unfold flattenEntries
    exact (resolveAction_blames haction).bind fun _ _ =>
      (resolveActionBlock_blames hblock).bind fun _ _ =>
        (flattenEntries_blames hflatten hentries).bind fun _ _ => blames_ok trivial
  | .useRef name span :: entries, h => by
    obtain ⟨hspan, hentries⟩ := List.forall_mem_cons.1 h
    unfold flattenEntries
    exact (hflatten name span (List.forall_mem_singleton.1 hspan)).bind fun _ _ =>
      (flattenEntries_blames hflatten hentries).bind fun _ _ => blames_ok trivial

theorem flattenPolicy_blames (hpolicies : ∀ p ∈ r.policies.map (·.2), ∀ s ∈ p.spans, P s) :
    ∀ (left : ℕ) (visiting : List String) (name : String) (span : Span), P span →
    Blames P (fun _ => True) (r.flattenPolicy left visiting name span) := by
  intro left
  induction left with
  | zero =>
    intro visiting name span hspan
    unfold flattenPolicy
    split_ifs
    · exact blames_at hspan (.circularUse name) fun _ => rfl
    · split
      · exact blames_at hspan (.undefinedPolicy name) fun _ => rfl
      · exact blames_panicWith
      · contradiction
  | succ left ih =>
    intro visiting name span hspan
    unfold flattenPolicy
    split_ifs
    · exact blames_at hspan (.circularUse name) fun _ => rfl
    · split
      · exact blames_at hspan (.undefinedPolicy name) fun _ => rfl
      · contradiction
      · rename_i policy left' hlookup hleft
        obtain rfl : left = left' := Nat.succ.inj hleft
        have hpolicy := hpolicies policy (mem_of_lookup hlookup)
        exact flattenEntries_blames (ih _) fun entry hentry s hs =>
          hpolicy s (List.mem_flatMap.2 ⟨entry, hentry, hs⟩)

theorem usedEntries_blames (hpolicies : ∀ p ∈ r.policies.map (·.2), ∀ s ∈ p.spans, P s)
    {left : ℕ} : ∀ {policies : List (String × Span)}, (∀ policy ∈ policies, P policy.2) →
    Blames P (fun _ => True) (r.usedEntries left policies)
  | [], _ => by
    unfold usedEntries
    exact blames_ok trivial
  | (name, span) :: policies, h => by
    obtain ⟨hspan, hrest⟩ := List.forall_mem_cons.1 h
    unfold usedEntries
    exact (flattenPolicy_blames hpolicies left [] name span hspan).bind fun _ _ =>
      (usedEntries_blames hpolicies hrest).bind fun _ _ => blames_ok trivial

end Resolver

theorem resolve_blames {file : Ast.PolicyFile} (h : file.Spanned P) :
    Blames P (fun _ => True) (resolve file) := by
  unfold resolve
  refine (new_blames h).bind fun r hpolicies => ?_
  split
  · exact blames_errWith nofun
  · rename_i useStmt huse
    obtain ⟨hused, haction⟩ := List.forall_mem_append.1 (h.useStmt useStmt huse)
    exact (Resolver.resolveAction_blames haction).bind fun _ _ =>
      (Resolver.usedEntries_blames hpolicies (List.forall_mem_map.1 hused)).bind
        fun _ _ => blames_ok trivial

end Resolution

/-! ## Validation -/

section Validation

open Pnut.Kafel.Parser

variable {P : Span → Prop} {names : List String}

theorem checkNames_blames : ∀ {used : List (String × Span)}, (∀ policy ∈ used, P policy.2) →
    Blames P (fun _ => True) (checkNames names used)
  | [], _ => blames_ok trivial
  | (name, span) :: used, h => by
    obtain ⟨hspan, hused⟩ := List.forall_mem_cons.1 h
    unfold checkNames
    split_ifs
    · exact checkNames_blames hused
    · exact blames_at hspan (.undefinedPolicy name) fun _ => rfl

theorem validateRules_blames : ∀ {rules : List Ast.SyscallRule}, (∀ rule ∈ rules, P rule.nameSpan) →
    Blames P (fun _ => True) (validateRules rules)
  | [], _ => blames_ok trivial
  | rule :: rules, h => by
    obtain ⟨hspan, hrules⟩ := List.forall_mem_cons.1 h
    unfold validateRules
    split_ifs
    · exact blames_at hspan (.parse _) fun _ => rfl
    · exact validateRules_blames hrules

theorem validateEntries_blames : ∀ {entries : List Ast.PolicyEntry},
    (∀ entry ∈ entries, ∀ s ∈ entry.spans, P s) →
    Blames P (fun _ => True) (validateEntries names entries)
  | [], _ => blames_ok trivial
  | .actionBlock block :: entries, h => by
    obtain ⟨hblock, hentries⟩ := List.forall_mem_cons.1 h
    have hrules : ∀ rule ∈ block.rules, P rule.nameSpan := fun rule hrule =>
      (List.forall_mem_append.1 hblock).2 _
        (List.mem_flatMap.2 ⟨rule, hrule, List.mem_cons_self⟩)
    exact (validateRules_blames hrules).bind fun _ _ => validateEntries_blames hentries
  | .useRef name span :: entries, h => by
    obtain ⟨hspan, hentries⟩ := List.forall_mem_cons.1 h
    refine (checkNames_blames ?_).bind fun _ _ => validateEntries_blames hentries
    exact List.forall_mem_singleton.2 (List.forall_mem_singleton.1 hspan)

theorem validatePolicies_blames : ∀ {policies : List Ast.Policy},
    (∀ p ∈ policies, ∀ s ∈ p.spans, P s) →
    Blames P (fun _ => True) (validatePolicies names policies)
  | [], _ => blames_ok trivial
  | policy :: policies, h => by
    obtain ⟨hpolicy, hpolicies⟩ := List.forall_mem_cons.1 h
    refine (validateEntries_blames fun entry hentry s hs => ?_).bind
      fun _ _ => validatePolicies_blames hpolicies
    exact hpolicy s (List.mem_flatMap.2 ⟨entry, hentry, hs⟩)

theorem validatePolicy_blames {file : Ast.PolicyFile} (h : file.Spanned P) :
    Blames P (fun _ => True) (validatePolicy file) := by
  unfold validatePolicy
  refine (validatePolicies_blames h.policies).bind fun _ _ => ?_
  split
  · rename_i useStmt huse
    have hused := (List.forall_mem_append.1 (h.useStmt useStmt huse)).1
    exact checkNames_blames (List.forall_mem_map.1 hused)
  · exact blames_ok trivial

end Validation

/-! ## Texts that are read -/

section Texts

variable (b : Build) (pest : Pest) (source : List Char) (options : CompileOptions)

/-- The texts that `parse_policy` may come to read, each with the name of its file: the main text,
the prelude, and what their directives include. -/
inductive Read : Option String → List Char → Prop where
  | main : Read none source
  | prelude {text : List Char} (h : options.prelude = some text) : Read none text
  | included {parent : Option String} {text : List Char} {file : Ast.PolicyFile}
      {i : Ast.Include} {resolver : IncludeResolver} {result : IncludeResult}
      (h : Read parent text) (hfile : Parser.parseText b pest text = .ok file)
      (hi : i ∈ file.includes) (hresolver : options.includeResolver = some resolver)
      (hresult : resolver i.filename parent = .ok result) :
      Read (some (result.canonicalName.getD i.filename)) result.contents

/-- What gives an error its span: the place where a text was rejected, a token of a text, or an
error of the include resolver. -/
inductive Origin where
  | rejected (text : List Char) (location : InputLocation)
  | token (text : List Char) (node : Tree)
  | resolver (span : Span)

/-- Positions are cut to 32 bits; a single one is made a span of one byte. -/
def Origin.span : Origin → Span
  | .rejected _ (.pos p) => ⟨UInt32.ofNat p, UInt32.ofNat p + 1⟩
  | .rejected _ (.span s e) => ⟨UInt32.ofNat s, UInt32.ofNat e⟩
  | .token _ node => spanOf node
  | .resolver span => span

/-- The texts are read, the rejection and the token are those of the parser, and the error is one
that the resolver gives for a directive. -/
inductive Origin.Of : Origin → Prop where
  | rejected {parent : Option String} {text : List Char} {err : PestError}
      (h : Read b pest source options parent text) (herr : pest text = .error err) :
      Of (.rejected text err.location)
  | token {parent : Option String} {text : List Char} {tokens : List Tree} {node : Tree}
      (h : Read b pest source options parent text) (htokens : pest text = .ok tokens)
      (hnode : node ∈ nodesOf tokens) : Of (.token text node)
  | resolver {parent : Option String} {text : List Char} {file : Ast.PolicyFile}
      {i : Ast.Include} {resolver : IncludeResolver} {err : Error} {span : Span}
      (h : Read b pest source options parent text)
      (hfile : Parser.parseText b pest text = .ok file) (hi : i ∈ file.includes)
      (hresolver : options.includeResolver = some resolver)
      (herr : resolver i.filename parent = .error err) (hspan : err.span = some span) :
      Of (.resolver span)

/-- The span has an origin. -/
def Originates (span : Span) : Prop :=
  ∃ origin : Origin, origin.Of b pest source options ∧ origin.span = span

variable {b pest source options}

theorem parseText_blames {parent : Option String} {text : List Char}
    (h : Read b pest source options parent text) :
    Blames (Originates b pest source options)
      (Ast.PolicyFile.Spanned (Originates b pest source options))
      (Parser.parseText b pest text) := by
  rcases hp : pest text with err | tokens
  · have horigin := Origin.Of.rejected h hp
    rw [parseText_of_error hp]
    unfold pestToParseError
    split
    · rename_i p hloc
      rw [hloc] at horigin
      unfold addU32
      split_ifs
      · exact blames_panicWith
      · exact blames_at ⟨_, horigin, rfl⟩ (.parse err.message) fun _ => rfl
    · rename_i s e hloc
      rw [hloc] at horigin
      exact blames_at ⟨_, horigin, rfl⟩ (.parse err.message) fun _ => rfl
  · rw [parseText_of_ok hp]
    exact buildFile_blames fun q hq => ⟨_, .token h hp hq, rfl⟩

theorem Ast.PolicyFile.Spanned.mergeIncluded {P : Span → Prop} {file included : Ast.PolicyFile}
    (h : file.Spanned P) (h' : included.Spanned P) :
    (Parser.mergeIncluded file included).Spanned P where
  includes := h.includes
  defines := by
    simp only [Parser.mergeIncluded, List.map_append, List.forall_mem_append]
    exact ⟨h.defines, h'.defines⟩
  policies := List.forall_mem_append.2 ⟨h.policies, h'.policies⟩
  useStmt u hu := by
    rcases (Option.orElse_eq_some _ _ _).1 hu with hu | ⟨-, hu⟩
    · exact h.useStmt u hu
    · exact h'.useStmt u hu

theorem Ast.PolicyFile.Spanned.mergePrelude {P : Span → Prop} {prelude file : Ast.PolicyFile}
    (h : prelude.Spanned P) (h' : file.Spanned P) :
    (Kafel.mergePrelude prelude file).Spanned P where
  includes := h'.includes
  defines := by
    simp only [Kafel.mergePrelude, List.map_append, List.forall_mem_append]
    exact ⟨h.defines, h'.defines⟩
  policies := List.forall_mem_append.2 ⟨h.policies, h'.policies⟩
  useStmt u hu := by
    rcases (Option.orElse_eq_some _ _ _).1 hu with hu | ⟨-, hu⟩
    · exact h'.useStmt u hu
    · exact h.useStmt u hu

theorem includeLoop_blames {P : Span → Prop} {parent : Option String}
    {deeper : Option
      (List Char → List String → Option String → Result (Ast.PolicyFile × List String))}
    {T : Option String → List Char → Prop}
    (hdeeper : ∀ parse ∈ deeper, ∀ parent text seen, T parent text →
      Blames P (fun out => out.1.Spanned P) (parse text seen parent))
    {includes : List Ast.Include} {file : Ast.PolicyFile} {seen : List String}
    (h : ∀ i ∈ includes, P i.span ∧ ∀ resolver, options.includeResolver = some resolver →
      (∀ result, resolver i.filename parent = .ok result →
        T (some (result.canonicalName.getD i.filename)) result.contents) ∧
      ∀ err span, resolver i.filename parent = .error err → err.span = some span → P span)
    (hfile : file.Spanned P) :
    Blames P (fun out => out.1.Spanned P)
      (Parser.includeLoop options parent deeper file seen includes) := by
  induction includes generalizing file seen with
  | nil => exact blames_ok hfile
  | cons i includes ih =>
    obtain ⟨filename, span⟩ := i
    obtain ⟨⟨hspan, hresolver⟩, hincludes⟩ := List.forall_mem_cons.1 h
    unfold Parser.includeLoop
    rcases hd : deeper with _ | parse
    · exact blames_errWith (by rintro _ ⟨⟩)
    simp only
    split_ifs
    · exact blames_at hspan (.circularInclude filename) fun _ => rfl
    rcases hopt : options.includeResolver with _ | resolver
    · exact blames_at hspan (.includeNotFound filename) fun _ => rfl
    obtain ⟨hok, herror⟩ := hresolver resolver hopt
    simp only
    split
    · exact blames_at hspan (.includeNotFound _) fun _ => rfl
    · rename_i err _ herr
      exact blames_errWith fun span hspan => herror err span herr hspan
    · rename_i result hresult
      refine (hdeeper parse hd _ _ _ (hok result hresult)).bind fun read hincl => ?_
      rw [← hd]
      exact ih hincludes (hfile.mergeIncluded hincl)

theorem parseWithIncludes_blames (left : ℕ) {parent : Option String} {text : List Char}
    {seen : List String} (h : Read b pest source options parent text) :
    Blames (Originates b pest source options)
      (fun out => out.1.Spanned (Originates b pest source options))
      (Parser.parseWithIncludes b pest options left text seen parent) := by
  -- the directives of a file that is read lead to texts that are read
  have hdirectives {parent : Option String} {text : List Char} {file : Ast.PolicyFile}
      (h : Read b pest source options parent text)
      (hfile : Parser.parseText b pest text = .ok file) :
      ∀ i ∈ file.includes, Originates b pest source options i.span ∧
        ∀ resolver, options.includeResolver = some resolver →
        (∀ result, resolver i.filename parent = .ok result → Read b pest source options
          (some (result.canonicalName.getD i.filename)) result.contents) ∧
        ∀ err span, resolver i.filename parent = .error err → err.span = some span →
          Originates b pest source options span := fun i hi =>
    ⟨((parseText_blames h).ok file hfile).includes i hi, fun resolver hresolver =>
      ⟨fun result hresult => .included h hfile hi hresolver hresult,
        fun err span herr hspan => ⟨_, .resolver h hfile hi hresolver herr hspan, rfl⟩⟩⟩
  have hstrip {file : Ast.PolicyFile} (hfile : file.Spanned (Originates b pest source options)) :
      ({ file with includes := [] } : Ast.PolicyFile).Spanned
        (Originates b pest source options) := { hfile with includes := by simp }
  induction left generalizing parent text seen with
  | zero =>
    unfold Parser.parseWithIncludes
    exact (parseText_blames h).self.bind fun file hfile =>
      includeLoop_blames (by rintro _ ⟨⟩) (hdirectives h hfile.1) (hstrip hfile.2)
  | succ left ih =>
    unfold Parser.parseWithIncludes
    refine (parseText_blames h).self.bind fun file hfile =>
      includeLoop_blames ?_ (hdirectives h hfile.1) (hstrip hfile.2)
    rintro _ ⟨⟩ parent text seen htext
    exact ih htext

theorem mergedFile_blames :
    Blames (Originates b pest source options)
      (Ast.PolicyFile.Spanned (Originates b pest source options))
      (mergedFile b pest source options) := by
  unfold mergedFile
  refine (parseWithIncludes_blames _ .main).bind fun main hfile => ?_
  rcases hprelude : options.prelude with _ | prelude
  · exact blames_ok hfile
  · refine (parseWithIncludes_blames _ (.prelude hprelude)).bind fun before h => ?_
    exact blames_ok (Ast.PolicyFile.Spanned.mergePrelude h hfile)

/-- The span of an error that `parse_policy` returns has an origin. -/
theorem parsePolicy_originates {err : Error} {span : Span}
    (h : parsePolicy b pest source options = errWith err) (hspan : err.span = some span) :
    Originates b pest source options span := by
  have hblames : Blames (Originates b pest source options) (fun _ => True)
      (parsePolicy b pest source options) := by
    unfold parsePolicy
    exact mergedFile_blames.bind fun file hfile => (validatePolicy_blames hfile).bind
      fun _ _ => resolve_blames hfile
  exact hblames.error err span h hspan

end Texts

end Pnut.Kafel
