import Pnut.Kafel.Compile
import Pnut.Proofs.Lowering

/-!
# What a resolved policy names

Syscall numbers come from the table, and argument indices from the declarations of a validated
rule, of which there are at most six.
-/

namespace Pnut.Kafel

open Resolver

/-- The largest number a syscall name can have. -/
theorem resolveSyscall_le {name : String} {nr : UInt32} (h : resolveSyscall name = .ok nr) :
    nr ≤ 1022 := by
  have htable : ∀ entry ∈ syscallTable, entry.2 ≤ 1022 := by decide +kernel
  unfold resolveSyscall at h
  split at h
  · rename_i nr' hlookup
    obtain rfl : nr' = nr := by simpa [pure, Except.pure] using h
    obtain ⟨l, r, heq, -⟩ := List.lookup_eq_some_iff.1 hlookup
    exact htable (name, nr') (by simp [heq])
  · simp at h

/-! ## Argument indices -/

section Indices

variable {r : Resolver} {args : List (String × UInt8)}

theorem argIndices_simplifyCompare (lhs : Expr) (op : CmpOp) (rhs : Expr) :
    (simplifyCompare lhs op rhs).argIndices ⊆ lhs.argIndices ++ rhs.argIndices := by
  unfold simplifyCompare
  split <;> simp [Expr.argIndices]

theorem argIndices_simplifyAnd (a b : Expr) :
    (simplifyAnd a b).argIndices ⊆ a.argIndices ++ b.argIndices := by
  unfold simplifyAnd
  split <;> simp [Expr.argIndices]

theorem argIndices_simplifyOr (a b : Expr) :
    (simplifyOr a b).argIndices ⊆ a.argIndices ++ b.argIndices := by
  unfold simplifyOr
  split <;> simp [Expr.argIndices]

theorem argIndices_simplifyNot (e : Expr) : (simplifyNot e).argIndices ⊆ e.argIndices := by
  unfold simplifyNot
  split <;> simp [Expr.argIndices]

theorem mem_of_lookup {α : Type} {name : String} {x : α} {l : List (String × α)}
    (h : l.lookup name = some x) : x ∈ l.map (·.2) := by
  obtain ⟨l₁, l₂, rfl, -⟩ := List.lookup_eq_some_iff.1 h
  simp

mutual

theorem resolveExpr_argIndices : ∀ {e : Ast.Expr} {e' : Expr}, r.resolveExpr args e = .ok e' →
    e'.argIndices ⊆ args.map (·.2)
  | .number n, e', h => by
    obtain rfl : Expr.constant n = e' := by simpa [resolveExpr, pure, Except.pure] using h
    simp [Expr.argIndices]
  | .ident name span, e', h => by
    unfold resolveExpr at h
    split at h
    · obtain rfl : Expr.constant _ = e' := by simpa [pure, Except.pure] using h
      simp [Expr.argIndices]
    · split at h
      · rename_i idx hidx
        obtain rfl : Expr.arg idx = e' := by simpa [pure, Except.pure] using h
        simpa [Expr.argIndices] using mem_of_lookup hidx
      · simp at h
  | .bitOr parts, e', h => by
    simp only [resolveExpr, bind_eq_ok] at h
    obtain ⟨es, hes, h⟩ := h
    split at h
    · obtain rfl : Expr.constant _ = e' := by simpa [pure, Except.pure] using h
      simp [Expr.argIndices]
    · obtain rfl : Expr.bitOr es = e' := by simpa [pure, Except.pure] using h
      simpa [Expr.argIndices] using resolveExprs_argIndices hes

theorem resolveExprs_argIndices : ∀ {es : List Ast.Expr} {es' : List Expr},
    r.resolveExprs args es = .ok es' → Expr.argIndices.partsArgIndices es' ⊆ args.map (·.2)
  | [], es', h => by
    obtain rfl : [] = es' := by simpa [resolveExprs, pure, Except.pure] using h
    simp [Expr.argIndices.partsArgIndices]
  | e :: es, es', h => by
    simp only [resolveExprs, bind_eq_ok, pure, Except.pure, Except.ok.injEq] at h
    obtain ⟨e', he, es'', hes, rfl⟩ := h
    exact List.append_subset.2 ⟨resolveExpr_argIndices he, resolveExprs_argIndices hes⟩

end

theorem resolveBoolExpr_argIndices {name : String} : ∀ {e : Ast.BoolExpr} {e' : Expr},
    r.resolveBoolExpr args name e = .ok e' → e'.argIndices ⊆ args.map (·.2)
  | .compare lhs op rhs, e', h => by
    simp only [resolveBoolExpr, bind_eq_ok] at h
    obtain ⟨rhs', hrhs, h⟩ := h
    have hr := resolveExpr_argIndices hrhs
    cases lhs with
    | arg argName span =>
      simp only at h
      split at h
      · rename_i idx hidx
        obtain rfl : simplifyCompare (.arg idx) op rhs' = e' := by
          simpa [pure, Except.pure] using h
        refine List.Subset.trans (argIndices_simplifyCompare ..) (List.append_subset.2 ⟨?_, hr⟩)
        simpa [Expr.argIndices] using mem_of_lookup hidx
      · split at h
        · obtain rfl : simplifyCompare (.constant _) op rhs' = e' := by
            simpa [pure, Except.pure] using h
          exact List.Subset.trans (argIndices_simplifyCompare ..)
            (by simpa [Expr.argIndices] using hr)
        · simp at h
    | masked argName span mask =>
      simp only at h
      split at h
      · simp at h
      · rename_i idx hidx
        simp only [bind_eq_ok, pure, Except.pure, Except.ok.injEq] at h
        obtain ⟨mask', hmask, rfl⟩ := h
        refine List.cons_subset.2 ⟨mem_of_lookup hidx, ?_⟩
        exact List.append_subset.2 ⟨resolveExpr_argIndices hmask, hr⟩
  | .and a b, e', h => by
    simp only [resolveBoolExpr, bind_eq_ok, pure, Except.pure, Except.ok.injEq] at h
    obtain ⟨ra, ha, rb, hb, rfl⟩ := h
    exact List.Subset.trans (argIndices_simplifyAnd ..)
      (List.append_subset.2 ⟨resolveBoolExpr_argIndices ha, resolveBoolExpr_argIndices hb⟩)
  | .or a b, e', h => by
    simp only [resolveBoolExpr, bind_eq_ok, pure, Except.pure, Except.ok.injEq] at h
    obtain ⟨ra, ha, rb, hb, rfl⟩ := h
    exact List.Subset.trans (argIndices_simplifyOr ..)
      (List.append_subset.2 ⟨resolveBoolExpr_argIndices ha, resolveBoolExpr_argIndices hb⟩)
  | .not inner, e', h => by
    simp only [resolveBoolExpr, bind_eq_ok, pure, Except.pure, Except.ok.injEq] at h
    obtain ⟨ri, hi, rfl⟩ := h
    exact List.Subset.trans (argIndices_simplifyNot ..) (resolveBoolExpr_argIndices hi)
  | .literal val, e', h => by
    obtain rfl : Expr.boolConst val = e' := by
      simpa [resolveBoolExpr, pure, Except.pure] using h
    simp [Expr.argIndices]

theorem argMap_lt {names : List String} (h : names.length ≤ 6) :
    ∀ idx ∈ (argMap names).map (·.2), idx < 6 := by
  intro idx hidx
  simp only [argMap, List.map_reverse, List.map_map, List.mem_reverse, List.mem_map,
    Function.comp_apply] at hidx
  obtain ⟨⟨name, i⟩, hi, rfl⟩ := hidx
  have hlt : i < 6 := (List.snd_lt_of_mem_zipIdx hi).trans_le (by simpa using h)
  clear hi
  interval_cases i <;> simp

end Indices

/-! ## Policies -/

/-- What resolution gives a rule: a number of the table and at most six arguments. -/
structure PolicyEntry.Named (e : PolicyEntry) : Prop where
  number : e.syscallNumber ≤ 1022
  args : ∀ f ∈ e.filter, ∀ idx ∈ f.argIndices, idx < 6

/-- No rule declares more than six arguments. -/
def Ast.Policy.Checked (p : Ast.Policy) : Prop :=
  ∀ block, .actionBlock block ∈ p.entries → ∀ rule ∈ block.rules, rule.args.length ≤ 6

section Checked

theorem validateRules_ok : ∀ {rules : List Ast.SyscallRule}, Parser.validateRules rules = .ok () →
    ∀ rule ∈ rules, rule.args.length ≤ 6
  | [], _ => by simp
  | rule :: rules, h => by
    unfold Parser.validateRules at h
    split_ifs at h with hlen
    · simp at h
    · simp only [List.mem_cons, forall_eq_or_imp]
      exact ⟨by omega, validateRules_ok h⟩

theorem validateEntries_ok {names : List String} : ∀ {entries : List Ast.PolicyEntry},
    Parser.validateEntries names entries = .ok () →
    ∀ block, .actionBlock block ∈ entries → ∀ rule ∈ block.rules, rule.args.length ≤ 6
  | [], _ => by simp
  | .actionBlock block :: entries, h => by
    simp only [Parser.validateEntries, bind_eq_ok] at h
    obtain ⟨⟨⟩, hblock, h⟩ := h
    rintro block' hmem
    rcases List.mem_cons.1 hmem with heq | hmem
    · cases heq
      exact validateRules_ok hblock
    · exact validateEntries_ok h block' hmem
  | .useRef name span :: entries, h => by
    simp only [Parser.validateEntries, bind_eq_ok] at h
    obtain ⟨⟨⟩, -, h⟩ := h
    rintro block' hmem
    exact validateEntries_ok h block' (by simpa using hmem)

theorem validatePolicies_ok {names : List String} : ∀ {policies : List Ast.Policy},
    Parser.validatePolicies names policies = .ok () → ∀ p ∈ policies, p.Checked
  | [], _ => by simp
  | p :: policies, h => by
    simp only [Parser.validatePolicies, bind_eq_ok] at h
    obtain ⟨⟨⟩, hp, h⟩ := h
    simp only [List.mem_cons, forall_eq_or_imp]
    exact ⟨validateEntries_ok hp, validatePolicies_ok h⟩

theorem validatePolicy_ok {file : Ast.PolicyFile} (h : Parser.validatePolicy file = .ok ()) :
    ∀ p ∈ file.policies, p.Checked := by
  simp only [Parser.validatePolicy, bind_eq_ok] at h
  obtain ⟨⟨⟩, hp, -⟩ := h
  exact validatePolicies_ok hp

end Checked

section Flatten

variable {r : Resolver}

theorem resolveName_le {rule : Ast.SyscallRule} {nr : UInt32} (h : resolveName rule = .ok nr) :
    nr ≤ 1022 := by
  unfold resolveName at h
  split at h
  · simp at h
  · exact resolveSyscall_le h

theorem resolveRule_named {action : Action} {rule : Ast.SyscallRule} {e : PolicyEntry}
    (hargs : rule.args.length ≤ 6) (h : r.resolveRule action rule = .ok e) : e.Named := by
  simp only [resolveRule, bind_eq_ok] at h
  obtain ⟨nr, hnr, h⟩ := h
  have hnumber := resolveName_le hnr
  split at h
  · simp only [bind_eq_ok, pure, Except.pure, Except.ok.injEq] at h
    obtain ⟨f, hf, rfl⟩ := h
    refine ⟨hnumber, ?_⟩
    rintro _ ⟨⟩ idx hidx
    exact argMap_lt hargs idx (resolveBoolExpr_argIndices hf hidx)
  · simp only [pure, Except.pure, Except.ok.injEq] at h
    subst h
    exact ⟨hnumber, by simp⟩

theorem flattenEntries_named
    {flatten : String → Span → Result (List (Action × List PolicyEntry))}
    (hflatten : ∀ name span blocks, flatten name span = .ok blocks →
      ∀ b ∈ blocks, ∀ e ∈ b.2, e.Named) :
    ∀ {entries : List Ast.PolicyEntry} {blocks : List (Action × List PolicyEntry)},
    (∀ block, .actionBlock block ∈ entries → ∀ rule ∈ block.rules, rule.args.length ≤ 6) →
    r.flattenEntries flatten entries = .ok blocks → ∀ b ∈ blocks, ∀ e ∈ b.2, e.Named
  | [], blocks, _, h => by
    obtain rfl : [] = blocks := by simpa [flattenEntries, pure, Except.pure] using h
    simp
  | .actionBlock block :: entries, blocks, hargs, h => by
    simp only [flattenEntries, bind_eq_ok, pure, Except.pure, Except.ok.injEq] at h
    obtain ⟨action, -, rules, hrules, rest, hrest, rfl⟩ := h
    simp only [List.mem_cons, forall_eq_or_imp]
    constructor
    · intro e he
      obtain ⟨rule, hrule, hr⟩ := mem_of_mapM hrules e he
      exact resolveRule_named (hargs block (by simp) rule hrule) hr
    · exact flattenEntries_named hflatten (fun b hb => hargs b (by simp [hb])) hrest
  | .useRef name span :: entries, blocks, hargs, h => by
    simp only [flattenEntries, bind_eq_ok, pure, Except.pure, Except.ok.injEq] at h
    obtain ⟨used, hused, rest, hrest, rfl⟩ := h
    simp only [List.mem_append]
    rintro b (hb | hb)
    · exact hflatten _ _ _ hused b hb
    · exact flattenEntries_named hflatten (fun b hb => hargs b (by simp [hb])) hrest b hb

theorem flattenPolicy_named (hpolicies : ∀ p ∈ r.policies.map (·.2), p.Checked) :
    ∀ (left : ℕ) (visiting : List String) (name : String) (span : Span)
      (blocks : List (Action × List PolicyEntry)),
    r.flattenPolicy left visiting name span = .ok blocks → ∀ b ∈ blocks, ∀ e ∈ b.2, e.Named
  | 0, visiting, name, span, blocks, h => by
    unfold flattenPolicy at h
    split_ifs at h
    · simp at h
    · split at h <;> simp at *
  | left + 1, visiting, name, span, blocks, h => by
    unfold flattenPolicy at h
    split_ifs at h
    · simp at h
    · split at h
      · simp at h
      · simp_all
      · rename_i policy left' hlookup hleft
        cases hleft
        exact flattenEntries_named (flattenPolicy_named hpolicies left (name :: visiting))
          (hpolicies _ (mem_of_lookup hlookup)) h

theorem usedEntries_named (hpolicies : ∀ p ∈ r.policies.map (·.2), p.Checked) {left : ℕ} :
    ∀ {names : List (String × Span)} {entries : List PolicyEntry},
    r.usedEntries left names = .ok entries → ∀ e ∈ entries, e.Named
  | [], entries, h => by
    obtain rfl : [] = entries := by simpa [usedEntries, pure, Except.pure] using h
    simp
  | (name, span) :: names, entries, h => by
    simp only [usedEntries, bind_eq_ok, pure, Except.pure, Except.ok.injEq] at h
    obtain ⟨blocks, hblocks, rest, hrest, rfl⟩ := h
    simp only [List.mem_append, List.mem_flatMap]
    rintro e (⟨b, hb, he⟩ | he)
    · exact flattenPolicy_named hpolicies left [] name span blocks hblocks b hb e he
    · exact usedEntries_named hpolicies hrest e he

end Flatten

theorem resolve_named {file : Ast.PolicyFile} {policy : Policy}
    (hchecked : ∀ p ∈ file.policies, p.Checked) (h : resolve file = .ok policy) :
    ∀ e ∈ policy.entries, e.Named := by
  simp only [resolve, Resolver.new, bind_eq_ok, pure, Except.pure, Except.ok.injEq] at h
  obtain ⟨resolver, ⟨defines, -, rfl⟩, h⟩ := h
  split at h
  · simp at h
  · simp only [bind_eq_ok, Except.ok.injEq] at h
    obtain ⟨defaultAction, -, entries, hentries, rfl⟩ := h
    refine usedEntries_named ?_ hentries
    simpa using hchecked

variable {b : Build} {pest : Pest} {policyText : List Char} {options : CompileOptions}

theorem parsePolicy_named {policy : Policy}
    (h : parsePolicy b pest policyText options = .ok policy) : ∀ e ∈ policy.entries, e.Named := by
  simp only [parsePolicy, bind_eq_ok] at h
  obtain ⟨file, -, ⟨⟩, hvalid, hresolve⟩ := h
  exact resolve_named (validatePolicy_ok hvalid) hresolve

end Pnut.Kafel
