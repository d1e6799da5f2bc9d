import Pnut.Proofs.Faithful

/-!
# The chain of filters

The chain puts the code of a filter in front of two jumps and enters it at its newest instruction,
where `generate_expr` gives an entry of its own. So a filter without code falls into the jump to
its action, and a left side without code is passed over. The chain picks the first filter that its
code decides true exactly when this makes no difference.
-/

namespace Pnut.Kafel

open Bpf (SockFilter SeccompData eval codeAt)
open ReverseCodegen (exits WellFormed Fits Delivers)

/-- The exit that the code of a filter takes, run from the entry `generate_expr` gives it. -/
def Expr.codeTruth (load : UInt32 → UInt32) (e : Expr) : Option Bool :=
  match generateExpr exits e 1 0 with
  | .ok (entry, buf) =>
    (Bpf.run buf load buf.length (buf.length - 1 - entry) 0).map (· == TRUE_EXIT_PLACEHOLDER)
  | .error _ => none

/-- The action of the first mapping that `truth` picks, else the fallback. -/
def selectMapping (truth : Expr → Bool) (ms : List ConditionalMapping) (fallback : Action) :
    Action :=
  match ms.find? fun m => truth m.expr with
  | some m => m.action
  | none => fallback

/-- The mappings' filters pick an action of the same return value, whether their code is entered
at its newest instruction or where it should be. -/
def EnteredAlike (ms : List ConditionalMapping) (fallback : Action) : Prop :=
  ∀ d : SeccompData, actionToRet (selectMapping (chainTruth (readArg d.load)) ms fallback) =
    actionToRet (selectMapping (Expr.decided (readArg d.load)) ms fallback)

section Entry

variable {e : Expr}

/-- The exit taken from the entry. -/
theorem codeTruth_eq {entry : ℕ} {buf : ExprBuf} (h : generateExpr exits e 1 0 = .ok (entry, buf))
    (load : UInt32 → UInt32) : e.codeTruth load = some (e.decided (readArg load)) := by
  obtain ⟨new, rfl, hlowered⟩ := generateExpr_spec e (by simp [exits]) (by simp [exits]) h
  obtain ⟨a', ha⟩ := hlowered.goes load exits 0
  have hlen : (new ++ exits).length = new.length + exits.length := List.length_append
  have hlt := hlowered.entry_lt
  have hexit : eval load (codeAt exits.length exits
      (if e.decided (readArg load) then 1 else 0)) 0 a' =
      some (if e.decided (readArg load) then TRUE_EXIT_PLACEHOLDER
        else FALSE_EXIT_PLACEHOLDER) := by
    cases e.decided (readArg load) <;> exact Bpf.eval_of_act_ret (Bpf.act_ret ..)
  rw [Expr.codeTruth, h]
  simp only
  rw [Bpf.run_eq_eval _ _ _ _ (by omega), hlen]
  unfold codeAt at ha hexit
  rw [ha, hexit]
  cases e.decided (readArg load) <;> rfl

theorem generateExpr_of_lowerExpr {insns : List SockFilter}
    (h : ReverseCodegen.lowerExprWithPlaceholders e = .ok insns) :
    ∃ entry, generateExpr exits e 1 0 = .ok (entry, insns) := by
  simp only [ReverseCodegen.lowerExprWithPlaceholders, bind_eq_ok, Except.ok.injEq] at h
  obtain ⟨⟨entry, _⟩, hgen, rfl⟩ := h
  exact ⟨entry, hgen⟩

end Entry

namespace ReverseCodegen

section Chain

variable {args : List UInt8} {cg cg' : ReverseCodegen}

/-- Every filter of a chain that was emitted has been lowered. -/
theorem lowered_of_foldrM_chainStep {next : Target} : ∀ {ms : List ConditionalMapping} {t : Target}
    {cg' : ReverseCodegen}, ms.foldrM (fun m state => chainStep state m) (next, cg) = .ok (t, cg') →
    ∀ m ∈ ms, ∃ entry insns, generateExpr exits m.expr 1 0 = .ok (entry, insns)
  | [], _, _, _ => by simp
  | m :: ms, t, cg', h => by
    simp only [List.foldrM_cons, bind_eq_ok] at h
    obtain ⟨⟨t₁, cg₁⟩, hms, hm⟩ := h
    simp only [chainStep, bind_eq_ok] at hm
    obtain ⟨insns, hlower, -⟩ := hm
    obtain ⟨entry, hgen⟩ := generateExpr_of_lowerExpr hlower
    intro m' hm'
    rcases List.mem_cons.1 hm' with rfl | hm'
    · exact ⟨entry, insns, hgen⟩
    · exact lowered_of_foldrM_chainStep hms m' hm'

theorem chainVerdict_eq_selectMapping (load : UInt32 → UInt32) (ms : List ConditionalMapping)
    (fallback : Action) : chainVerdict load ms (actionToRet fallback) =
      actionToRet (selectMapping (chainTruth (readArg load)) ms fallback) := by
  unfold chainVerdict selectMapping
  cases ms.find? fun m => chainTruth (readArg load) m.expr <;> rfl

/-- What runs from the location of a chain. -/
theorem emitConditionalChain_run {ms : List ConditionalMapping} {fallback : Action} {loc : ℕ}
    (hwf : WellFormed args cg) (hargs : ∀ m ∈ ms, m.expr.argIndices ⊆ args)
    (h : cg.emitConditionalChain ms fallback = .ok (loc, cg')) (hfit : Fits cg')
    (load : UInt32 → UInt32) (a : UInt32) :
    Bpf.run cg'.buffer load cg'.buffer.length (cg'.buffer.length - 1 - loc) a =
      some (actionToRet (selectMapping (chainTruth (readArg load)) ms fallback)) := by
  simp only [emitConditionalChain, List.foldlM_reverse, bind_eq_ok, Except.ok.injEq] at h
  obtain ⟨⟨t, cg₂⟩, hchain, hr⟩ := h
  obtain ⟨hs₁, hd₁⟩ := actionTarget_spec fallback hwf
  obtain ⟨hs₂, hv₂, -, hd₂⟩ :=
    foldrM_chainStep_spec hs₁.wf (hd₁ (fun _ => 0) 0).valid hargs hchain
  have hres := resolveTarget_spec hs₂.wf hv₂
  rw [hr] at hres
  have hd := hres.delivers hfit (hd₂ (hres.step.ext.fits hfit) (hd₁ load) a)
  rw [Bpf.run_eq_eval _ _ _ _ (by omega), ← chainVerdict_eq_selectMapping]
  exact hd.2

end Chain

/-- The chain picks the first filter that its code decides true, run from the entry
`generate_expr` gives, exactly when entering the code at its newest instruction picks an action of
the same return value. -/
theorem emitConditionalChain_selects_iff {args : List UInt8} {cg cg' : ReverseCodegen}
    {ms : List ConditionalMapping} {fallback : Action} {loc : ℕ} (hwf : WellFormed args cg)
    (hargs : ∀ m ∈ ms, m.expr.argIndices ⊆ args)
    (h : cg.emitConditionalChain ms fallback = .ok (loc, cg')) (hfit : Fits cg') :
    (∀ (d : SeccompData) (a : UInt32),
      Bpf.run cg'.buffer d.load cg'.buffer.length (cg'.buffer.length - 1 - loc) a =
        some (actionToRet (selectMapping (fun e => e.codeTruth d.load = some true) ms fallback))) ↔
      EnteredAlike ms fallback := by
  have hlowered : ∀ m ∈ ms, ∃ entry insns, generateExpr exits m.expr 1 0 = .ok (entry, insns) := by
    simp only [emitConditionalChain, List.foldlM_reverse, bind_eq_ok] at h
    obtain ⟨⟨t, cg₂⟩, hchain, -⟩ := h
    exact lowered_of_foldrM_chainStep hchain
  have hcode (d : SeccompData) :
      selectMapping (fun e => e.codeTruth d.load = some true) ms fallback =
        selectMapping (Expr.decided (readArg d.load)) ms fallback := by
    unfold selectMapping
    rw [find?_congr fun m hm => ?_]
    obtain ⟨entry, insns, hgen⟩ := hlowered m hm
    simp [codeTruth_eq hgen]
  constructor
  · intro hruns d
    have := hruns d 0
    rw [emitConditionalChain_run hwf hargs h hfit, hcode] at this
    exact Option.some.inj this
  · intro halike d a
    rw [emitConditionalChain_run hwf hargs h hfit, hcode, halike d]

/-- A filter folded to false, in front of a fallback. -/
def foldedMappings : List ConditionalMapping := [⟨.boolConst false, .allow⟩]

def foldedChain : ℕ × ReverseCodegen :=
  ((new.emitConditionalChain foldedMappings .killProcess).toOption).getD (0, new)

/-- The chain allows every call, whose filter is false. -/
theorem foldedChain_not_selects :
    new.emitConditionalChain foldedMappings .killProcess = .ok foldedChain ∧
      ¬ ∀ (d : SeccompData) (a : UInt32),
        Bpf.run foldedChain.2.buffer d.load foldedChain.2.buffer.length
            (foldedChain.2.buffer.length - 1 - foldedChain.1) a =
          some (actionToRet (selectMapping (fun e => e.codeTruth d.load = some true)
            foldedMappings .killProcess)) := by
  refine ⟨rfl, fun h => ?_⟩
  have := h ⟨0, 0, 0, fun _ => 0⟩ 0
  revert this
  decide

theorem foldedChain_selects_iff :
    (∀ (d : SeccompData) (a : UInt32),
      Bpf.run foldedChain.2.buffer d.load foldedChain.2.buffer.length
          (foldedChain.2.buffer.length - 1 - foldedChain.1) a =
        some (actionToRet (selectMapping (fun e => e.codeTruth d.load = some true)
          foldedMappings .killProcess))) ↔ EnteredAlike foldedMappings .killProcess :=
  emitConditionalChain_selects_iff (wellFormed_new []) (by decide)
    (by rfl : new.emitConditionalChain foldedMappings .killProcess = .ok foldedChain)
    (by unfold Fits; decide)

end ReverseCodegen

end Pnut.Kafel
