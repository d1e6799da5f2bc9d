import Pnut.Proofs.Defines

/-!
# What a `USE` stands for

The policies of a file are a system of equations as well: the rules of a policy are those of its
blocks, and at each reference the rules of the policy it names. Flattening inlines them. The set of
policies it is inside of holds those that lead to the one it is at, so that a policy reached along
two paths is no cycle and a cycle is always found.
-/

namespace Pnut.Kafel

open Relation (ReflTransGen TransGen)

namespace Resolver

variable (r : Resolver)

/-! ## The set and the vector -/

/-- The loop of `flatten_policy` with the set and the vector it is given. -/
def flattenEntriesInto (flatten : String → Span → List String × List (Action × List PolicyEntry) →
      Result (List String × List (Action × List PolicyEntry))) :
    List Ast.PolicyEntry → List String × List (Action × List PolicyEntry) →
      Result (List String × List (Action × List PolicyEntry))
  | [], state => .ok state
  | .actionBlock block :: rest, (visiting, entries) => do
    let action ← r.resolveAction block.action
    let resolvedRules ← r.resolveActionBlock block action
    flattenEntriesInto flatten rest (visiting, entries ++ [(action, resolvedRules)])
  | .useRef refName span :: rest, state => do
    let state ← flatten refName span state
    flattenEntriesInto flatten rest state

/-- `flatten_policy` with the set it shares with its callers and the vector it fills. -/
def flattenPolicyInto : ℕ → String → Span → List String × List (Action × List PolicyEntry) →
    Result (List String × List (Action × List PolicyEntry))
  | left, policyName, refSpan, (visiting, entries) =>
    if policyName ∈ visiting then errWith (.circularUse policyName (some refSpan))
    else
      match r.policies.lookup policyName, left with
      | none, _ => errWith (.undefinedPolicy policyName (some refSpan))
      | some _, 0 => panicWith "stack overflow"
      | some policy, left + 1 => do
        let (visiting, entries) ← r.flattenEntriesInto (flattenPolicyInto left) policy.entries
          (policyName :: visiting, entries)
        .ok (visiting.erase policyName, entries)

/-- The loop of `resolve` over the policies of the `USE` statement, with the set they share. -/
def usedEntriesInto (left : ℕ) : List (String × Span) → List String × List PolicyEntry →
    Result (List String × List PolicyEntry)
  | [], state => .ok state
  | (policyName, policySpan) :: policies, (visiting, allEntries) => do
    let (visiting, policyEntries) ← r.flattenPolicyInto left policyName policySpan (visiting, [])
    usedEntriesInto left policies (visiting, allEntries ++ policyEntries.flatMap (·.2))

variable {r}

theorem flattenEntriesInto_eq {visiting : List String}
    {flatten : String → Span → Result (List (Action × List PolicyEntry))}
    {into : String → Span → List String × List (Action × List PolicyEntry) →
      Result (List String × List (Action × List PolicyEntry))}
    (h : ∀ name span entries, into name span (visiting, entries) =
      (flatten name span).map fun blocks => (visiting, entries ++ blocks)) :
    ∀ (rest : List Ast.PolicyEntry) (entries : List (Action × List PolicyEntry)),
    r.flattenEntriesInto into rest (visiting, entries) =
      (r.flattenEntries flatten rest).map fun blocks => (visiting, entries ++ blocks)
  | [], entries => by simp [flattenEntriesInto, flattenEntries, pure, Except.pure, Except.map]
  | .actionBlock block :: rest, entries => by
    unfold flattenEntriesInto flattenEntries
    rcases r.resolveAction block.action with e | action
    · rfl
    simp only [ok_bind]
    rcases r.resolveActionBlock block action with e | rules
    · rfl
    simp only [ok_bind]
    rw [flattenEntriesInto_eq h rest]
    rcases r.flattenEntries flatten rest with e | blocks
    · rfl
    · simp [Except.map, pure, Except.pure]
  | .useRef name span :: rest, entries => by
    unfold flattenEntriesInto flattenEntries
    rw [h]
    rcases flatten name span with e | used
    · rfl
    show r.flattenEntriesInto into rest (visiting, entries ++ used) = _
    rw [flattenEntriesInto_eq h rest]
    simp only [ok_bind]
    rcases r.flattenEntries flatten rest with e | blocks
    · rfl
    · simp [Except.map, pure, Except.pure]

/-- Flattening a policy gives the set back as it was. -/
theorem flattenPolicyInto_eq (left : ℕ) (name : String) (span : Span) (visiting : List String)
    (entries : List (Action × List PolicyEntry)) :
    r.flattenPolicyInto left name span (visiting, entries) =
      (r.flattenPolicy left visiting name span).map fun blocks =>
        (visiting, entries ++ blocks) := by
  induction left generalizing name span visiting entries with
  | zero =>
    unfold flattenPolicyInto flattenPolicy
    split_ifs
    · rfl
    · rcases r.policies.lookup name <;> rfl
  | succ left ih =>
    unfold flattenPolicyInto flattenPolicy
    split_ifs
    · rfl
    rcases r.policies.lookup name with _ | policy
    · rfl
    simp only []
    rw [flattenEntriesInto_eq fun name' span entries => ih name' span (name :: visiting) entries]
    rcases r.flattenEntries _ policy.entries with e | blocks
    · rfl
    · show Except.ok ((name :: visiting).erase name, entries ++ blocks) = _
      rw [List.erase_cons_head]
      rfl

/-- The set is empty again after each policy of the `USE` statement. -/
theorem usedEntriesInto_eq (left : ℕ) : ∀ (policies : List (String × Span))
    (allEntries : List PolicyEntry), r.usedEntriesInto left policies ([], allEntries) =
      (r.usedEntries left policies).map fun entries => ([], allEntries ++ entries)
  | [], allEntries => by simp [usedEntriesInto, usedEntries, pure, Except.pure, Except.map]
  | (name, span) :: policies, allEntries => by
    unfold usedEntriesInto usedEntries
    rw [flattenPolicyInto_eq]
    rcases r.flattenPolicy left [] name span with e | blocks
    · rfl
    have hblocks : ([] : List (Action × List PolicyEntry)) ++ blocks = blocks := rfl
    show r.usedEntriesInto left policies ([], allEntries ++ (_ ++ blocks).flatMap Prod.snd) = _
    rw [hblocks, usedEntriesInto_eq left policies]
    simp only [ok_bind]
    rcases r.usedEntries left policies with e | entries
    · rfl
    · simp [Except.map, pure, Except.pure]

/-! ## The equations -/

variable (r) in
/-- The rules of a block. -/
def blockRules (block : Ast.ActionBlock) : Result (List PolicyEntry) := do
  let action ← r.resolveAction block.action
  r.resolveActionBlock block action

variable (r) in
/-- The rules an entry of a policy stands for, when the policies have the rules of `val`. -/
def entryRules (val : String → List PolicyEntry) : Ast.PolicyEntry → List PolicyEntry
  | .actionBlock block => (r.blockRules block).toOption.getD []
  | .useRef name _ => val name

end Resolver

def Ast.PolicyEntry.useName : Ast.PolicyEntry → Option String
  | .actionBlock _ => none
  | .useRef name _ => some name

namespace Resolver

variable {r : Resolver}

theorem entryRules_actionBlock {block : Ast.ActionBlock} {rules : List PolicyEntry}
    {val : String → List PolicyEntry} (h : r.blockRules block = .ok rules) :
    r.entryRules val (.actionBlock block) = rules := by
  unfold entryRules
  simp [h, Except.toOption]

variable (r) in
/-- A policy is the rules of its entries in order. -/
def inlining : Equations String (List Ast.PolicyEntry) (List PolicyEntry) where
  rhs name := (r.policies.lookup name).map Ast.Policy.entries
  refs entries := entries.filterMap Ast.PolicyEntry.useName
  eval val entries := entries.flatMap (r.entryRules val)
  eval_congr {val val' entries} h := by
    unfold List.flatMap
    refine congrArg List.flatten (List.map_congr_left fun entry hentry => ?_)
    rcases entry with block | ⟨name, span⟩
    · rfl
    · exact h name (List.mem_filterMap.2 ⟨_, hentry, rfl⟩)

/-! ## What flattening gives -/

section Sound

variable {flatten : String → Span → Result (List (Action × List PolicyEntry))}

theorem flattenEntries_solved (hflatten : ∀ name span blocks, flatten name span = .ok blocks →
      r.inlining.Solved name (blocks.flatMap Prod.snd)) :
    ∀ {entries : List Ast.PolicyEntry} {blocks : List (Action × List PolicyEntry)},
    r.flattenEntries flatten entries = .ok blocks →
    (∀ name ∈ r.inlining.refs entries, ∃ v, r.inlining.Solved name v) ∧
      blocks.flatMap Prod.snd = r.inlining.eval r.inlining.solution entries
  | [], blocks, h => by
    obtain rfl : [] = blocks := by simpa [flattenEntries, pure, Except.pure] using h
    exact ⟨by simp [inlining], rfl⟩
  | .actionBlock block :: entries, blocks, h => by
    simp only [flattenEntries, bind_eq_ok, pure, Except.pure, Except.ok.injEq] at h
    obtain ⟨action, haction, rules, hrules, rest, hrest, rfl⟩ := h
    obtain ⟨hrefs, hvalue⟩ := flattenEntries_solved hflatten hrest
    refine ⟨hrefs, ?_⟩
    have hblock : r.blockRules block = .ok rules := by
      unfold blockRules
      rw [haction, ok_bind, hrules]
    show rules ++ rest.flatMap Prod.snd = r.entryRules _ (.actionBlock block) ++ _
    rw [hvalue, entryRules_actionBlock hblock]
    rfl
  | .useRef name span :: entries, blocks, h => by
    simp only [flattenEntries, bind_eq_ok, pure, Except.pure, Except.ok.injEq] at h
    obtain ⟨used, hused, rest, hrest, rfl⟩ := h
    obtain ⟨hrefs, hvalue⟩ := flattenEntries_solved hflatten hrest
    have hsolved := hflatten name span used hused
    refine ⟨List.forall_mem_cons.2 ⟨⟨_, hsolved⟩, hrefs⟩, ?_⟩
    show (used ++ rest).flatMap Prod.snd = r.inlining.solution name ++ _
    rw [List.flatMap_append, hvalue, hsolved.solution_eq]
    rfl

theorem flattenPolicy_solved {left : ℕ} {visiting : List String} {name : String} {span : Span}
    {blocks : List (Action × List PolicyEntry)}
    (h : r.flattenPolicy left visiting name span = .ok blocks) :
    r.inlining.Solved name (blocks.flatMap Prod.snd) := by
  induction left generalizing visiting name span blocks with
  | zero =>
    unfold flattenPolicy at h
    split_ifs at h
    · simp at h
    · split at h <;> simp at *
  | succ left ih =>
    unfold flattenPolicy at h
    split_ifs at h
    · simp at h
    rcases hlookup : r.policies.lookup name with _ | policy
    · simp [hlookup] at h
    rw [hlookup] at h
    obtain ⟨hrefs, hvalue⟩ := flattenEntries_solved (fun _ _ _ hb => ih hb) h
    rw [hvalue]
    refine .intro (by simp [inlining, hlookup]) fun m hm => ?_
    obtain ⟨v, hv⟩ := hrefs m hm
    exact hv.solution

theorem usedEntries_solved {left : ℕ} : ∀ {policies : List (String × Span)}
    {entries : List PolicyEntry}, r.usedEntries left policies = .ok entries →
    (∀ p ∈ policies, ∃ v, r.inlining.Solved p.1 v) ∧
      entries = policies.flatMap fun p => r.inlining.solution p.1
  | [], entries, h => by
    obtain rfl : [] = entries := by simpa [usedEntries, pure, Except.pure] using h
    exact ⟨by simp, rfl⟩
  | (name, span) :: policies, entries, h => by
    simp only [usedEntries, bind_eq_ok, pure, Except.pure, Except.ok.injEq] at h
    obtain ⟨blocks, hblocks, rest, hrest, rfl⟩ := h
    have hsolved := flattenPolicy_solved hblocks
    obtain ⟨hall, hvalue⟩ := usedEntries_solved hrest
    refine ⟨List.forall_mem_cons.2 ⟨⟨_, hsolved⟩, hall⟩, ?_⟩
    rw [List.flatMap_cons, hsolved.solution_eq, hvalue]

end Sound

/-! ## When flattening succeeds -/

section Succeeds

variable (r) in
/-- The actions, names and filters of the blocks resolve. -/
def BlocksResolve (entries : List Ast.PolicyEntry) : Prop :=
  ∀ block, .actionBlock block ∈ entries → ∃ rules, r.blockRules block = .ok rules

variable {P : String → Prop}
  {flatten : String → Span → Result (List (Action × List PolicyEntry))}

theorem blockRules_ok {block : Ast.ActionBlock} {rules : List PolicyEntry}
    (h : r.blockRules block = .ok rules) : ∃ action, r.resolveAction block.action = .ok action ∧
      r.resolveActionBlock block action = .ok rules := by
  simpa only [blockRules, bind_eq_ok] using h

theorem flattenEntries_ok : ∀ {entries : List Ast.PolicyEntry}, r.BlocksResolve entries →
    (∀ name ∈ r.inlining.refs entries, ∀ span, ∃ blocks, flatten name span = .ok blocks) →
    ∃ blocks, r.flattenEntries flatten entries = .ok blocks
  | [], _, _ => ⟨[], rfl⟩
  | .actionBlock block :: entries, hblocks, h => by
    obtain ⟨rules, hrules⟩ := hblocks block (by simp)
    obtain ⟨action, haction, hrules⟩ := blockRules_ok hrules
    obtain ⟨rest, hrest⟩ :=
      flattenEntries_ok (fun block hmem => hblocks block (List.mem_cons_of_mem _ hmem)) h
    refine ⟨(action, rules) :: rest, ?_⟩
    simp only [flattenEntries, haction, hrules, hrest, ok_bind]
    rfl
  | .useRef name span :: entries, hblocks, h => by
    obtain ⟨used, hused⟩ := h name (by simp [inlining, Ast.PolicyEntry.useName]) span
    obtain ⟨rest, hrest⟩ :=
      flattenEntries_ok (fun block hmem => hblocks block (List.mem_cons_of_mem _ hmem))
        fun m hm => h m (List.mem_cons_of_mem _ hm)
    exact ⟨used ++ rest, by simp only [flattenEntries, hused, hrest, ok_bind]; rfl⟩

theorem flattenEntries_panicsOnly (h : ∀ name span, PanicsOnly P (flatten name span)) :
    ∀ {entries : List Ast.PolicyEntry}, r.BlocksResolve entries →
    PanicsOnly P (r.flattenEntries flatten entries)
  | [], _ => panicsOnly_ok _
  | .actionBlock block :: entries, hblocks => by
    obtain ⟨rules, hrules⟩ := hblocks block (by simp)
    obtain ⟨action, haction, hrules⟩ := blockRules_ok hrules
    unfold flattenEntries
    rw [haction, ok_bind, hrules, ok_bind]
    exact (flattenEntries_panicsOnly h fun block hmem =>
      hblocks block (List.mem_cons_of_mem _ hmem)).bind fun _ _ => panicsOnly_ok _
  | .useRef name span :: entries, hblocks => by
    unfold flattenEntries
    exact (h name span).bind fun _ _ => (flattenEntries_panicsOnly h fun block hmem =>
      hblocks block (List.mem_cons_of_mem _ hmem)).bind fun _ _ => panicsOnly_ok _

variable (hblocks : ∀ name p, r.policies.lookup name = some p → r.BlocksResolve p.entries)
include hblocks

/-- A grounded policy is flattened: the set leads to it, so it is not in the set. -/
theorem flattenPolicy_ok {left : ℕ} {visiting : List String} {name : String}
    (hroom : Equations.Room (r.policies.map Prod.fst) left visiting)
    (hground : r.inlining.Grounded name) (hleads : r.inlining.Leads visiting name) (span : Span) :
    ∃ blocks, r.flattenPolicy left visiting name span = .ok blocks := by
  induction left generalizing visiting name span with
  | zero =>
    obtain ⟨entries, hentries⟩ := hground.defined name .refl
    obtain ⟨p, hp, -⟩ := Option.map_eq_some_iff.1 hentries
    exact absurd (hroom.pos (mem_keys_of_lookup hp) (hground.notMem hleads)) (lt_irrefl 0)
  | succ left ih =>
    have hpath := hground.notMem hleads
    obtain ⟨entries, hentries⟩ := hground.defined name .refl
    obtain ⟨p, hp, rfl⟩ := Option.map_eq_some_iff.1 hentries
    unfold flattenPolicy
    rw [if_neg hpath, hp]
    refine flattenEntries_ok (hblocks name p hp) fun m hm span => ?_
    have hrefers : r.inlining.Refers name m := ⟨p.entries, hentries, hm⟩
    exact ih (hroom.cons (mem_keys_of_lookup hp) hpath) (hground.of_refers hrefers)
      (hleads.cons hrefers) span

/-- With room for every policy the levels do not run out. -/
theorem flattenPolicy_panicsOnly {left : ℕ} {visiting : List String}
    (hroom : Equations.Room (r.policies.map Prod.fst) left visiting) (name : String) (span : Span) :
    PanicsOnly P (r.flattenPolicy left visiting name span) := by
  induction left generalizing visiting name span with
  | zero =>
    unfold flattenPolicy
    by_cases hpath : name ∈ visiting
    · rw [if_pos hpath]
      exact panicsOnly_errWith _
    rw [if_neg hpath]
    rcases hlookup : r.policies.lookup name with _ | p
    · exact panicsOnly_errWith _
    · exact absurd (hroom.pos (mem_keys_of_lookup hlookup) hpath) (lt_irrefl 0)
  | succ left ih =>
    unfold flattenPolicy
    by_cases hpath : name ∈ visiting
    · rw [if_pos hpath]
      exact panicsOnly_errWith _
    rw [if_neg hpath]
    rcases hlookup : r.policies.lookup name with _ | p
    · exact panicsOnly_errWith _
    · exact flattenEntries_panicsOnly
        (ih (hroom.cons (mem_keys_of_lookup hlookup) hpath)) (hblocks name p hlookup)

variable {left : ℕ} (hroom : Equations.Room (r.policies.map Prod.fst) left [])
include hroom

theorem usedEntries_ok : ∀ {policies : List (String × Span)},
    (∀ p ∈ policies, r.inlining.Grounded p.1) →
    ∃ entries, r.usedEntries left policies = .ok entries
  | [], _ => ⟨[], rfl⟩
  | (name, span) :: policies, h => by
    rw [List.forall_mem_cons] at h
    obtain ⟨blocks, hflat⟩ :=
      flattenPolicy_ok hblocks hroom h.1 (by simp [Equations.Leads]) span
    obtain ⟨rest, hrest⟩ := usedEntries_ok h.2
    exact ⟨_, by simp only [usedEntries, hflat, hrest, ok_bind]; rfl⟩

theorem usedEntries_panicsOnly : ∀ (policies : List (String × Span)),
    PanicsOnly P (r.usedEntries left policies)
  | [] => panicsOnly_ok _
  | (name, span) :: policies => by
    unfold usedEntries
    exact (flattenPolicy_panicsOnly hblocks hroom name span).bind fun _ _ =>
      (usedEntries_panicsOnly policies).bind fun _ _ => panicsOnly_ok _

end Succeeds

end Resolver

/-! ## The references of a file -/

section File

variable {file : Ast.PolicyFile} {r : Resolver} {use : Ast.UseStmt} {defaultAction : Action}

/-- The policy named `a` has a reference to `b`. -/
def Uses (file : Ast.PolicyFile) (a b : String) : Prop :=
  ∃ p ∈ file.policies, p.name = a ∧ ∃ span, .useRef b span ∈ p.entries

theorem Resolver.policies_of_new (h : Resolver.new file = .ok r) :
    r.policies = (file.policies.map fun p => (p.name, p)).reverse := by
  simp only [Resolver.new, bind_eq_ok, pure, Except.pure, Except.ok.injEq] at h
  obtain ⟨_, -, rfl⟩ := h
  rfl

theorem lookup_policies_iff (hnodup : (file.policies.map Ast.Policy.name).Nodup)
    (h : Resolver.new file = .ok r) {name : String} {p : Ast.Policy} :
    r.policies.lookup name = some p ↔ p ∈ file.policies ∧ p.name = name := by
  have hkeys : ((file.policies.map fun p => (p.name, p)).map Prod.fst).Nodup := by
    rwa [List.map_map]
  rw [Resolver.policies_of_new h, lookup_reverse hkeys, lookup_eq_some_iff_mem hkeys]
  simp only [List.mem_map, Prod.mk.injEq]
  constructor
  · rintro ⟨q, hq, rfl, rfl⟩
    exact ⟨hq, rfl⟩
  · rintro ⟨hp, rfl⟩
    exact ⟨p, hp, rfl, rfl⟩

theorem refers_iff_uses (hnodup : (file.policies.map Ast.Policy.name).Nodup)
    (h : Resolver.new file = .ok r) {a b : String} : r.inlining.Refers a b ↔ Uses file a b := by
  constructor
  · rintro ⟨entries, hentries, hb⟩
    obtain ⟨p, hp, rfl⟩ := Option.map_eq_some_iff.1 hentries
    obtain ⟨hmem, hname⟩ := (lookup_policies_iff hnodup h).1 hp
    obtain ⟨entry, hentry, huse⟩ := List.mem_filterMap.1 hb
    rcases entry with block | ⟨name, span⟩
    · simp [Ast.PolicyEntry.useName] at huse
    · obtain rfl : name = b := by simpa [Ast.PolicyEntry.useName] using huse
      exact ⟨p, hmem, hname, span, hentry⟩
  · rintro ⟨p, hmem, hname, span, hentry⟩
    have hp := (lookup_policies_iff hnodup h).2 ⟨hmem, hname⟩
    exact ⟨p.entries, by simp [Resolver.inlining, hp], List.mem_filterMap.2 ⟨_, hentry, rfl⟩⟩

theorem resolve_eq (hnew : Resolver.new file = .ok r) (huse : file.useStmt = some use)
    (hdefault : r.resolveAction use.defaultAction = .ok defaultAction) :
    resolve file = (r.usedEntries file.policies.length use.policies).map
      fun entries => ⟨entries, defaultAction⟩ := by
  unfold resolve
  rw [hnew, ok_bind, huse]
  simp only [hdefault, ok_bind]
  rcases r.usedEntries file.policies.length use.policies with e | entries <;> rfl

end File

/-- `resolve` inlines the references when no cycle and no missing policy is in reach of the `USE`
statement, and fails when a cycle is; the set is empty again after each policy it names. -/
theorem resolve_inlines {file : Ast.PolicyFile} {r : Resolver} {use : Ast.UseStmt}
    {defaultAction : Action} (hnodup : (file.policies.map Ast.Policy.name).Nodup)
    (hnew : Resolver.new file = .ok r) (huse : file.useStmt = some use)
    (hdefault : r.resolveAction use.defaultAction = .ok defaultAction)
    (hblocks : ∀ p ∈ file.policies, r.BlocksResolve p.entries) :
    ¬ Panics (resolve file) ∧
    ((∀ p ∈ use.policies, ∀ b, ReflTransGen (Uses file) p.1 b →
        (∃ q ∈ file.policies, q.name = b) ∧ ¬ TransGen (Uses file) b b) →
      ∃ inlined : String → List PolicyEntry,
        (∀ p ∈ use.policies, r.inlining.Solved p.1 (inlined p.1)) ∧
        resolve file = .ok ⟨use.policies.flatMap fun p => inlined p.1, defaultAction⟩) ∧
    ((∃ p ∈ use.policies, ∃ b, ReflTransGen (Uses file) p.1 b ∧ TransGen (Uses file) b b) →
      ∃ e, resolve file = .error (.error e)) ∧
    resolve file = (r.usedEntriesInto file.policies.length use.policies ([], [])).map
      (fun state => ⟨state.2, defaultAction⟩) ∧
    ∀ policies state, policies <+: use.policies →
      r.usedEntriesInto file.policies.length policies ([], []) = .ok state → state.1 = [] := by
  have heq := resolve_eq hnew huse hdefault
  have hroom : Equations.Room (r.policies.map Prod.fst) file.policies.length [] := by
    have hlen : (r.policies.map Prod.fst).length = file.policies.length := by
      simp [Resolver.policies_of_new hnew]
    exact hlen ▸ Equations.room_nil (r.policies.map Prod.fst)
  have hresolves : ∀ name p, r.policies.lookup name = some p → r.BlocksResolve p.entries :=
    fun name p hp => hblocks p ((lookup_policies_iff hnodup hnew).1 hp).1
  have hpanics : ¬ Panics (resolve file) := by
    rintro ⟨m, hm⟩
    have hruns := Resolver.usedEntries_panicsOnly (P := fun _ => False) hresolves hroom use.policies
    rw [heq] at hm
    rcases hentries : r.usedEntries file.policies.length use.policies with e | entries
    · rw [hentries] at hm
      cases hm
      exact hruns.imp m hentries
    · simp [hentries, Except.map] at hm
  have hsolved : ∀ entries, r.usedEntries file.policies.length use.policies = .ok entries →
      ∀ p ∈ use.policies, r.inlining.Solved p.1 (r.inlining.solution p.1) := by
    intro entries hentries p hp
    obtain ⟨v, hv⟩ := (Resolver.usedEntries_solved hentries).1 p hp
    exact hv.solution
  have hrefers : ∀ a b, Uses file a b → r.inlining.Refers a b :=
    fun _ _ => (refers_iff_uses hnodup hnew).2
  have huses : ∀ a b, r.inlining.Refers a b → Uses file a b :=
    fun _ _ => (refers_iff_uses hnodup hnew).1
  refine ⟨hpanics, fun h => ?_, ?_, ?_, ?_⟩
  · have hground : ∀ p ∈ use.policies, r.inlining.Grounded p.1 := fun p hp =>
      { defined := fun b hb => by
          obtain ⟨⟨q, hq, hname⟩, -⟩ := h p hp b (Relation.ReflTransGen.mono huses _ _ hb)
          exact ⟨q.entries, by
            simp [Resolver.inlining, (lookup_policies_iff hnodup hnew).2 ⟨hq, hname⟩]⟩
        acyclic := fun b hb hcycle =>
          (h p hp b (Relation.ReflTransGen.mono huses _ _ hb)).2
            (Relation.TransGen.mono huses _ _ hcycle) }
    obtain ⟨entries, hentries⟩ := Resolver.usedEntries_ok hresolves hroom hground
    refine ⟨r.inlining.solution, hsolved entries hentries, ?_⟩
    rw [heq, hentries, (Resolver.usedEntries_solved hentries).2]
    rfl
  · rintro ⟨p, hp, b, hreach, hcycle⟩
    rcases hres : resolve file with ⟨e | m⟩ | policy
    · exact ⟨e, rfl⟩
    · exact absurd ⟨m, hres⟩ hpanics
    · rw [heq] at hres
      rcases hentries : r.usedEntries file.policies.length use.policies with e | entries
      · simp [hentries, Except.map] at hres
      · exact absurd (Relation.TransGen.mono hrefers _ _ hcycle)
          ((hsolved entries hentries p hp).grounded.acyclic b
            (Relation.ReflTransGen.mono hrefers _ _ hreach))
  · rw [heq, Resolver.usedEntriesInto_eq]
    rcases r.usedEntries file.policies.length use.policies <;> rfl
  · intro policies state _ hstate
    rw [Resolver.usedEntriesInto_eq] at hstate
    rcases hentries : r.usedEntries file.policies.length policies with e | entries
    · simp [hentries, Except.map] at hstate
    · rw [hentries] at hstate
      obtain rfl := Except.ok.inj hstate
      rfl

def sharedUse : Ast.UseStmt := ⟨[("a", ⟨0, 0⟩), ("c", ⟨0, 0⟩)], .kill⟩

/-- A policy reached along two paths, and listed again. -/
def sharedFile : Ast.PolicyFile :=
  { policies :=
      [⟨"a", [.useRef "b" ⟨0, 0⟩, .actionBlock ⟨.log, [⟨"write", ⟨0, 0⟩, [], none⟩]⟩,
          .useRef "c" ⟨0, 0⟩]⟩,
       ⟨"b", [.useRef "c" ⟨0, 0⟩]⟩, ⟨"c", [.actionBlock ⟨.allow, [⟨"read", ⟨0, 0⟩, [], none⟩]⟩]⟩]
    useStmt := some sharedUse }

def sharedResolver : Resolver := ⟨[], (sharedFile.policies.map fun p => (p.name, p)).reverse⟩

theorem sharedFile_inlines :
    ¬ Panics (resolve sharedFile) ∧
    ((∀ p ∈ sharedUse.policies, ∀ b, ReflTransGen (Uses sharedFile) p.1 b →
        (∃ q ∈ sharedFile.policies, q.name = b) ∧ ¬ TransGen (Uses sharedFile) b b) →
      ∃ inlined : String → List PolicyEntry,
        (∀ p ∈ sharedUse.policies, sharedResolver.inlining.Solved p.1 (inlined p.1)) ∧
        resolve sharedFile = .ok ⟨sharedUse.policies.flatMap fun p => inlined p.1, .kill⟩) ∧
    ((∃ p ∈ sharedUse.policies, ∃ b, ReflTransGen (Uses sharedFile) p.1 b ∧
        TransGen (Uses sharedFile) b b) → ∃ e, resolve sharedFile = .error (.error e)) ∧
    resolve sharedFile =
      (sharedResolver.usedEntriesInto sharedFile.policies.length sharedUse.policies ([], [])).map
        (fun state => ⟨state.2, .kill⟩) ∧
    ∀ policies state, policies <+: sharedUse.policies →
      sharedResolver.usedEntriesInto sharedFile.policies.length policies ([], []) = .ok state →
      state.1 = [] := by
  refine resolve_inlines (by decide) rfl rfl rfl ?_
  intro p hp block hblock
  simp only [sharedFile, List.mem_cons, List.not_mem_nil, or_false] at hp
  rcases hp with rfl | rfl | rfl
  · obtain rfl : block = ⟨.log, [⟨"write", ⟨0, 0⟩, [], none⟩]⟩ := by simpa using hblock
    exact ⟨[⟨1, .log, none⟩], rfl⟩
  · simp at hblock
  · obtain rfl : block = ⟨.allow, [⟨"read", ⟨0, 0⟩, [], none⟩]⟩ := by simpa using hblock
    exact ⟨[⟨0, .allow, none⟩], rfl⟩

end Pnut.Kafel
