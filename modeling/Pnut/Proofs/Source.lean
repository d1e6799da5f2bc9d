import Pnut.Proofs.Flatten
import Pnut.Proofs.Payload

/-!
# What the text of a policy says

The rules of the `USE` statement are read off the syntax tree: those of its policies in order, and
at each reference those of the policy it names. Of the rules for a syscall, the first whose filter
holds decides, then the first without a filter, then the default. Resolution keeps this reading; so
a compiled program returns what the text says exactly when its policy is read alike by the code of
its filters.
-/

namespace Pnut.Kafel

open Bpf (SockFilter SeccompData)
open Libc Resolver

/-! ## The source -/

/-- A rule, with the action of its block. -/
structure SourceRule where
  action : Ast.Action
  rule : Ast.SyscallRule

/-- The policy of a name; of two with the same name the later counts. -/
def Ast.PolicyFile.policyNamed (file : Ast.PolicyFile) (name : String) : Option Ast.Policy :=
  file.policies.reverse.find? (·.name == name)

/-- The entries stand for the rules. -/
inductive Inlines (file : Ast.PolicyFile) : List Ast.PolicyEntry → List SourceRule → Prop
  | nil : Inlines file [] []
  | actionBlock {block : Ast.ActionBlock} {entries : List Ast.PolicyEntry}
      {rules : List SourceRule} : Inlines file entries rules →
      Inlines file (.actionBlock block :: entries)
        (block.rules.map (⟨block.action, ·⟩) ++ rules)
  | useRef {name : String} {span : Span} {policy : Ast.Policy} {entries : List Ast.PolicyEntry}
      {used rules : List SourceRule} : file.policyNamed name = some policy →
      Inlines file policy.entries used → Inlines file entries rules →
      Inlines file (.useRef name span :: entries) (used ++ rules)

/-- The policies of the statement, as references. -/
def Ast.UseStmt.entries (use : Ast.UseStmt) : List Ast.PolicyEntry :=
  use.policies.map fun used => .useRef used.1 used.2

section Verdict

variable (defines : Table) (d : SeccompData)

/-- The rule is one for the call. -/
def SourceRule.concerns (r : SourceRule) : Bool := syscallTable.lookup r.rule.name == some d.nr

/-- The rule has a filter, and it holds of the arguments of the call. -/
def SourceRule.fires (r : SourceRule) : Bool :=
  r.rule.filter.any fun filter => filter.holds defines r.rule.args d.args == some true

/-- The action that the rules select for a call. -/
def sourceAction (rules : List SourceRule) (default : Ast.Action) : Ast.Action :=
  let mine := rules.filter (·.concerns d)
  match mine.find? (·.fires defines d) with
  | some r => r.action
  | none =>
    match mine.find? (·.rule.filter.isNone) with
    | some r => r.action
    | none => default

/-- The return value of an action: its class, and the low 16 bits of the value it declares. -/
def Ast.Action.ret : Ast.Action → Option UInt32
  | .allow => some SECCOMP_RET_ALLOW
  | .kill => some SECCOMP_RET_KILL
  | .killProcess => some SECCOMP_RET_KILL_PROCESS
  | .log => some SECCOMP_RET_LOG
  | .userNotif => some 0x7FC00000
  | .errno value =>
    (value.declared defines).map fun v => SECCOMP_RET_ERRNO ||| UInt32.ofNat (v.toNat % 65536)
  | .trap value =>
    (value.declared defines).map fun v => SECCOMP_RET_TRAP ||| UInt32.ofNat (v.toNat % 65536)
  | .trace value =>
    (value.declared defines).map fun v => SECCOMP_RET_TRACE ||| UInt32.ofNat (v.toNat % 65536)

end Verdict

/-! ## Rules and what they become -/

section Rules

variable {r : Resolver} {d : SeccompData}

/-- What resolution makes of an action returns what the action declares. -/
theorem resolveAction_ret {action : Ast.Action} {action' : Action}
    (h : r.resolveAction action = .ok action') :
    action.ret r.defines = some (actionToRet action') := by
  have hcarrier (c : Carrier) (value : Ast.Expr)
      (h : r.resolveAction (c.declare value) = .ok action') :
      (value.declared r.defines).map (fun v => c.code ||| UInt32.ofNat (v.toNat % 65536)) =
        some (actionToRet action') := by
    obtain ⟨w, hw, rfl⟩ := (resolveAction_eq_ok r).1 h
    rw [hw, Option.map_some, c.ret_eq]
    congr 2
    apply UInt32.toNat_inj.1
    rw [data_toNat, UInt32.toNat_ofNat']
    omega
  cases action with
  | errno value => exact hcarrier .errno value h
  | trap value => exact hcarrier .trap value h
  | trace value => exact hcarrier .trace value h
  | allow | kill | killProcess | log | userNotif =>
    obtain rfl := Except.ok.inj h
    rfl

/-- A rule and the entry that resolution makes of it. -/
structure Becomes (r : Resolver) (s : SourceRule) (e : PolicyEntry) : Prop where
  action : r.resolveAction s.action = .ok e.action
  number : syscallTable.lookup s.rule.name = some e.syscallNumber
  filter : match s.rule.filter, e.filter with
    | some filter, some e' =>
      r.resolveBoolExpr (argMap s.rule.args) s.rule.name filter = .ok e'
    | none, none => True
    | _, _ => False

theorem resolveName_lookup {rule : Ast.SyscallRule} {nr : UInt32}
    (h : resolveName rule = .ok nr) : syscallTable.lookup rule.name = some nr := by
  unfold resolveName resolveSyscall at h
  cases hlookup : syscallTable.lookup rule.name with
  | none => simp [hlookup, errWith] at h
  | some nr' =>
    obtain rfl : nr' = nr := by simpa [hlookup, pure, Except.pure] using h
    rfl

theorem resolveRule_becomes {action : Ast.Action} {action' : Action} {rule : Ast.SyscallRule}
    {e : PolicyEntry} (haction : r.resolveAction action = .ok action')
    (h : r.resolveRule action' rule = .ok e) : Becomes r ⟨action, rule⟩ e := by
  simp only [resolveRule, bind_eq_ok] at h
  obtain ⟨nr, hnr, h⟩ := h
  have hnumber := resolveName_lookup hnr
  cases hfilter : rule.filter with
  | none =>
    obtain rfl : (⟨nr, action', none⟩ : PolicyEntry) = e := by
      simpa [hfilter, pure, Except.pure] using h
    exact ⟨haction, hnumber, by simp [hfilter]⟩
  | some filter =>
    simp only [hfilter, bind_eq_ok, pure, Except.pure, Except.ok.injEq] at h
    obtain ⟨e', he', rfl⟩ := h
    exact ⟨haction, hnumber, by simpa [hfilter] using he'⟩

theorem resolveActionBlock_becomes {block : Ast.ActionBlock} {action : Action}
    (haction : r.resolveAction block.action = .ok action) : ∀ {rules : List Ast.SyscallRule}
    {entries : List PolicyEntry}, rules.mapM (r.resolveRule action) = .ok entries →
    List.Forall₂ (Becomes r) (rules.map (⟨block.action, ·⟩)) entries
  | [], entries, h => by
    obtain rfl : [] = entries := by simpa [pure, Except.pure] using h
    exact .nil
  | rule :: rules, entries, h => by
    simp only [List.mapM_cons, bind_eq_ok, pure, Except.pure, Except.ok.injEq] at h
    obtain ⟨e, he, rest, hrest, rfl⟩ := h
    exact .cons (resolveRule_becomes haction he) (resolveActionBlock_becomes haction hrest)

variable {file : Ast.PolicyFile}

/-- Flattening gives what the rules become that the entries stand for. -/
theorem flattenEntries_expands
    {flatten : String → Span → Result (List (Action × List PolicyEntry))}
    (hflatten : ∀ name span blocks, flatten name span = .ok blocks →
      ∃ policy rules, file.policyNamed name = some policy ∧ Inlines file policy.entries rules ∧
        List.Forall₂ (Becomes r) rules (blocks.flatMap Prod.snd)) :
    ∀ {entries : List Ast.PolicyEntry} {blocks : List (Action × List PolicyEntry)},
    r.flattenEntries flatten entries = .ok blocks →
    ∃ rules, Inlines file entries rules ∧
      List.Forall₂ (Becomes r) rules (blocks.flatMap Prod.snd)
  | [], blocks, h => by
    obtain rfl : [] = blocks := by simpa [flattenEntries, pure, Except.pure] using h
    exact ⟨[], .nil, .nil⟩
  | .actionBlock block :: entries, blocks, h => by
    simp only [flattenEntries, bind_eq_ok, pure, Except.pure, Except.ok.injEq] at h
    obtain ⟨action, haction, resolved, hresolved, rest, hrest, rfl⟩ := h
    obtain ⟨rules, hexpands, hbecomes⟩ := flattenEntries_expands hflatten hrest
    exact ⟨_, .actionBlock hexpands,
      List.rel_append (resolveActionBlock_becomes haction hresolved) hbecomes⟩
  | .useRef name span :: entries, blocks, h => by
    simp only [flattenEntries, bind_eq_ok, pure, Except.pure, Except.ok.injEq] at h
    obtain ⟨used, hused, rest, hrest, rfl⟩ := h
    obtain ⟨policy, usedRules, hnamed, hpolicy, hbecomes⟩ := hflatten name span used hused
    obtain ⟨rules, hexpands, hrules⟩ := flattenEntries_expands hflatten hrest
    refine ⟨_, .useRef hnamed hpolicy hexpands, ?_⟩
    rw [List.flatMap_append]
    exact List.rel_append hbecomes hrules

theorem lookup_policies (hnew : Resolver.new file = .ok r) (name : String) :
    r.policies.lookup name = file.policyNamed name := by
  rw [Resolver.policies_of_new hnew, Ast.PolicyFile.policyNamed, ← List.map_reverse]
  induction file.policies.reverse with
  | nil => rfl
  | cons p ps ih =>
    rw [List.map_cons, lookup_cons_ite, List.find?_cons, ih]
    by_cases h : name = p.name
    · simp [h]
    · rw [if_neg h, beq_false_of_ne (Ne.symm h)]

theorem flattenPolicy_expands (hnew : Resolver.new file = .ok r) :
    ∀ (left : ℕ) {visiting : List String} {name : String} {span : Span}
      {blocks : List (Action × List PolicyEntry)},
    r.flattenPolicy left visiting name span = .ok blocks →
    ∃ policy rules, file.policyNamed name = some policy ∧ Inlines file policy.entries rules ∧
      List.Forall₂ (Becomes r) rules (blocks.flatMap Prod.snd)
  | 0, visiting, name, span, blocks, h => by
    unfold flattenPolicy at h
    split_ifs at h
    · simp at h
    · split at h <;> simp at *
  | left + 1, visiting, name, span, blocks, h => by
    unfold flattenPolicy at h
    split_ifs at h
    · simp at h
    rw [lookup_policies hnew] at h
    cases hnamed : file.policyNamed name with
    | none => simp [hnamed] at h
    | some policy =>
      rw [hnamed] at h
      obtain ⟨rules, hexpands, hbecomes⟩ :=
        flattenEntries_expands (fun _ _ _ => flattenPolicy_expands hnew left) h
      exact ⟨policy, rules, rfl, hexpands, hbecomes⟩

theorem usedEntries_expands (hnew : Resolver.new file = .ok r) {left : ℕ} :
    ∀ {policies : List (String × Span)} {entries : List PolicyEntry},
    r.usedEntries left policies = .ok entries →
    ∃ rules, Inlines file (policies.map fun used => .useRef used.1 used.2) rules ∧
      List.Forall₂ (Becomes r) rules entries
  | [], entries, h => by
    obtain rfl : [] = entries := by simpa [usedEntries, pure, Except.pure] using h
    exact ⟨[], .nil, .nil⟩
  | (name, span) :: policies, entries, h => by
    simp only [usedEntries, bind_eq_ok, pure, Except.pure, Except.ok.injEq] at h
    obtain ⟨blocks, hblocks, rest, hrest, rfl⟩ := h
    obtain ⟨policy, used, hnamed, hpolicy, hbecomes⟩ := flattenPolicy_expands hnew left hblocks
    obtain ⟨rules, hexpands, hrules⟩ := usedEntries_expands hnew hrest
    exact ⟨_, .useRef hnamed hpolicy hexpands, List.rel_append hbecomes hrules⟩

/-! ## The selection -/

theorem Becomes.concerns {s : SourceRule} {e : PolicyEntry} (h : Becomes r s e) :
    s.concerns d = decide (e.syscallNumber = d.nr) := by
  unfold SourceRule.concerns
  rw [h.number]
  by_cases hnr : e.syscallNumber = d.nr <;> simp [hnr]

theorem Becomes.fires {s : SourceRule} {e : PolicyEntry} (h : Becomes r s e)
    (hargs : s.rule.args.length ≤ 6) :
    s.fires r.defines d = e.filter.any (Expr.holds (argOf d.args)) := by
  have hfilter := h.filter
  unfold SourceRule.fires
  cases hs : s.rule.filter with
  | none =>
    cases he : e.filter with
    | none => rfl
    | some e' => simp [hs, he] at hfilter
  | some filter =>
    cases he : e.filter with
    | none => simp [hs, he] at hfilter
    | some e' =>
      simp only [hs, he] at hfilter
      have htruth := (resolveBoolExpr_holds hargs hfilter).2 d.args
      simp [htruth]

theorem Becomes.isNone {s : SourceRule} {e : PolicyEntry} (h : Becomes r s e) :
    s.rule.filter.isNone = e.filter.isNone := by
  have hfilter := h.filter
  cases hs : s.rule.filter <;> cases he : e.filter <;> simp_all

/-- Related lists, searched alike. -/
theorem find?_becomes {p : SourceRule → Bool} {q : PolicyEntry → Bool} :
    ∀ {rules : List SourceRule} {entries : List PolicyEntry},
    List.Forall₂ (fun s e => Becomes r s e ∧ p s = q e) rules entries →
    (∃ s e, rules.find? p = some s ∧ entries.find? q = some e ∧ Becomes r s e) ∨
      rules.find? p = none ∧ entries.find? q = none
  | [], [], _ => .inr ⟨rfl, rfl⟩
  | s :: rules, e :: entries, .cons ⟨hbecomes, hpq⟩ h => by
    rw [List.find?_cons, List.find?_cons, hpq]
    cases q e with
    | true => exact .inl ⟨s, e, rfl, rfl, hbecomes⟩
    | false => exact find?_becomes h

theorem filter_becomes {rules : List SourceRule} {entries : List PolicyEntry}
    (h : List.Forall₂ (Becomes r) rules entries) :
    List.Forall₂ (Becomes r) (rules.filter (·.concerns d))
      (entries.filter (·.syscallNumber = d.nr)) := by
  induction h with
  | nil => exact .nil
  | cons hbecomes _ ih =>
    rw [List.filter_cons, List.filter_cons, hbecomes.concerns]
    split_ifs
    · exact .cons hbecomes ih
    · exact ih

/-- The selected actions return the same. -/
theorem sourceAction_ret {rules : List SourceRule} {entries : List PolicyEntry}
    {default : Ast.Action} {default' : Action} (h : List.Forall₂ (Becomes r) rules entries)
    (hargs : ∀ s ∈ rules, s.rule.args.length ≤ 6)
    (hdefault : r.resolveAction default = .ok default') :
    (sourceAction r.defines d rules default).ret r.defines =
      some (Policy.verdict ⟨entries, default'⟩ d) := by
  have hmine := filter_becomes (d := d) h
  have hfires : List.Forall₂ (fun s e => Becomes r s e ∧
      s.fires r.defines d = e.filter.any (Expr.holds (argOf d.args)))
      (rules.filter (·.concerns d)) (entries.filter (·.syscallNumber = d.nr)) := by
    have hsix : ∀ s ∈ rules.filter (·.concerns d), s.rule.args.length ≤ 6 :=
      fun s hs => hargs s (List.mem_of_mem_filter hs)
    exact ((List.forall₂_and_left _ _).2 ⟨hsix, hmine⟩).imp
      fun s e hs => ⟨hs.2, hs.2.fires hs.1⟩
  have hnone : List.Forall₂ (fun s e => Becomes r s e ∧ s.rule.filter.isNone = e.filter.isNone)
      (rules.filter (·.concerns d)) (entries.filter (·.syscallNumber = d.nr)) :=
    hmine.imp fun s e hs => ⟨hs, hs.isNone⟩
  unfold sourceAction Policy.verdict Policy.select selectAction Policy.entriesFor
  rcases find?_becomes hfires with ⟨s, e, hs, he, hbecomes⟩ | ⟨hs, he⟩
  · simp only [hs, he]
    exact resolveAction_ret hbecomes.action
  · simp only [hs, he]
    rcases find?_becomes hnone with ⟨s, e, hs, he, hbecomes⟩ | ⟨hs, he⟩
    · simp only [hs, he]
      exact resolveAction_ret hbecomes.action
    · simp only [hs, he]
      exact resolveAction_ret hdefault

end Rules

/-! ## The text and its program -/

section Text

variable {file : Ast.PolicyFile}

/-- The rules that entries stand for are given by them. -/
theorem Inlines.unique {entries : List Ast.PolicyEntry} {rules rules' : List SourceRule}
    (h : Inlines file entries rules) (h' : Inlines file entries rules') : rules = rules' := by
  induction h generalizing rules' with
  | nil =>
    cases h'
    rfl
  | actionBlock _ ih =>
    cases h' with
    | actionBlock h' => rw [ih h']
  | useRef hnamed _ _ ihused ih =>
    cases h' with
    | useRef hnamed' hused' h' =>
      obtain rfl := Option.some.inj (hnamed.symm.trans hnamed')
      rw [ihused hused', ih h']

/-- They are rules of the entries, or of policies of the file. -/
theorem Inlines.forall_rules {P : Ast.SyscallRule → Prop}
    (hfile : ∀ p ∈ file.policies, ∀ block, .actionBlock block ∈ p.entries →
      ∀ rule ∈ block.rules, P rule)
    {entries : List Ast.PolicyEntry} {rules : List SourceRule} (h : Inlines file entries rules)
    (hentries : ∀ block, .actionBlock block ∈ entries → ∀ rule ∈ block.rules, P rule) :
    ∀ s ∈ rules, P s.rule := by
  induction h with
  | nil => simp
  | actionBlock _ ih =>
    refine List.forall_mem_append.2 ⟨?_, ih fun block hmem => hentries block (by simp [hmem])⟩
    intro s hs
    obtain ⟨rule, hrule, rfl⟩ := List.mem_map.1 hs
    exact hentries _ (by simp) rule hrule
  | useRef hnamed _ _ ihused ih =>
    refine List.forall_mem_append.2 ⟨ihused ?_, ih fun block hmem => ?_⟩
    swap
    · exact hentries block (by simp [hmem])
    have hmem := List.mem_of_find?_eq_some hnamed
    exact hfile _ (List.mem_reverse.1 hmem)

/-- The program returns what the rules select. -/
def Says (prog : List SockFilter) (defines : Table) (rules : List SourceRule)
    (default : Ast.Action) : Prop :=
  ∀ d : SeccompData, d.arch = AUDIT_ARCH_X86_64 →
    Bpf.exec prog d.load = (sourceAction defines d rules default).ret defines

theorem resolve_expands {policy : Policy} (h : resolve file = .ok policy) :
    ∃ r use rules, Resolver.new file = .ok r ∧ file.useStmt = some use ∧
      Inlines file use.entries rules ∧ List.Forall₂ (Becomes r) rules policy.entries ∧
      r.resolveAction use.defaultAction = .ok policy.defaultAction := by
  unfold resolve at h
  simp only [bind_eq_ok] at h
  obtain ⟨r, hnew, h⟩ := h
  cases huse : file.useStmt with
  | none => simp [huse] at h
  | some use =>
    simp only [huse, bind_eq_ok, pure, Except.pure, Except.ok.injEq] at h
    obtain ⟨defaultAction, hdefault, entries, hentries, rfl⟩ := h
    obtain ⟨rules, hexpands, hbecomes⟩ := usedEntries_expands hnew hentries
    exact ⟨r, use, rules, hnew, rfl, hexpands, hbecomes, hdefault⟩

variable {b : Build} {pest : Pest} {policyText : List Char} {options : CompileOptions}
  {prog : List SockFilter} {policy : Policy}

/-- A text that compiles has a `USE` statement that stands for rules, and the program returns what
these rules say of the whole arguments exactly when the policy is read alike by the code of its
filters. -/
theorem compiled_says_iff (hfile : mergedFile b pest policyText options = .ok file)
    (hparse : parsePolicy b pest policyText options = .ok policy)
    (h : policy.codegen b = .ok prog) (hfit : b = .debug ∨ policy.JumpsFit) :
    ∃ r use, Resolver.new file = .ok r ∧ file.useStmt = some use ∧
      (∃ rules, Inlines file use.entries rules) ∧
      ∀ rules, Inlines file use.entries rules →
        (Says prog r.defines rules use.defaultAction ↔ policy.ReadAlike) := by
  have hnamed := parsePolicy_named hparse
  unfold parsePolicy at hparse
  rw [hfile] at hparse
  simp only [ok_bind, bind_eq_ok] at hparse
  obtain ⟨⟨⟩, hvalid, hresolve⟩ := hparse
  obtain ⟨r, use, rules, hnew, huse, hexpands, hbecomes, hdefault⟩ := resolve_expands hresolve
  refine ⟨r, use, hnew, huse, ⟨rules, hexpands⟩, fun rules' hrules' => ?_⟩
  obtain rfl := hexpands.unique hrules'
  have hsix : ∀ s ∈ rules, s.rule.args.length ≤ 6 :=
    hexpands.forall_rules (P := fun rule => rule.args.length ≤ 6)
      (fun p hp block hblock rule hrule => validatePolicy_ok hvalid p hp block hblock rule hrule)
      (by simp [Ast.UseStmt.entries])
  have hverdict (d : SeccompData) :
      (sourceAction r.defines d rules use.defaultAction).ret r.defines = some (policy.verdict d) :=
    sourceAction_ret hbecomes hsix hdefault
  have hindices : ∀ idx ∈ policy.argIndices, idx < 6 := by
    intro idx hidx
    obtain ⟨e, he, hidx⟩ := List.mem_flatMap.1 hidx
    cases hf : e.filter with
    | none => simp [hf] at hidx
    | some f => exact (hnamed e he).args f hf idx (by simpa [hf] using hidx)
  rw [← codegen_decidedBy_iff (fun e he => (hnamed e he).number) hindices h hfit]
  unfold Says Policy.DecidedBy
  simp only [hverdict]

end Text

/-! A text with a define, a reference, two arguments of one name, a filter and a value. -/

def maskedText : List Char :=
  ("#define DENIED 13 POLICY base { ERRNO(DENIED) { ioctl(_, req, _) { (req & 7) == 2 } } } " ++
    "POLICY p { USE base ALLOW { read } } USE p DEFAULT KILL").toList

theorem eq_ok_of_isOk {α : Type} {x : Result α} {d : α} (h : x.toOption.isSome = true) :
    x = .ok (x.toOption.getD d) := by
  cases x with
  | error e => cases h
  | ok a => rfl

def maskedFile : Ast.PolicyFile :=
  (mergedFile .debug (Pest.interpreter silentError) maskedText {}).toOption.getD {}

def maskedPolicy : Policy :=
  (parsePolicy .debug (Pest.interpreter silentError) maskedText {}).toOption.getD ⟨[], .kill⟩

def maskedProgram : List SockFilter := (maskedPolicy.codegen .debug).toOption.getD []

theorem maskedProgram_says :
    ∃ r use, Resolver.new maskedFile = .ok r ∧ maskedFile.useStmt = some use ∧
      (∃ rules, Inlines maskedFile use.entries rules) ∧
      ∀ rules, Inlines maskedFile use.entries rules →
        (Says maskedProgram r.defines rules use.defaultAction ↔ maskedPolicy.ReadAlike) := by
  have hfile : mergedFile .debug (Pest.interpreter silentError) maskedText {} = .ok maskedFile :=
    eq_ok_of_isOk (by decide +kernel)
  have hparse : parsePolicy .debug (Pest.interpreter silentError) maskedText {} =
      .ok maskedPolicy := eq_ok_of_isOk (by decide +kernel)
  have hprog : maskedPolicy.codegen .debug = .ok maskedProgram := eq_ok_of_isOk (by decide +kernel)
  exact compiled_says_iff hfile hparse hprog (.inl rfl)

end Pnut.Kafel
