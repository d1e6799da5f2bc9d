import Pnut.Proofs.Jumps

/-!
# The action tables

Registering numbers the return values in the order in which they first come, so table and index
are each other's inverse. A cached site stays what it is, since nothing behind the newest
instruction changes; one that has drifted out of reach is replaced by a fresh one.
-/

namespace Pnut.Kafel.ReverseCodegen

open Bpf (SockFilter)
open Libc

/-- The table and its index are each other's inverse, without duplicates, and a cached location is
a return of its action. -/
structure Consistent (cg : ReverseCodegen) : Prop where
  nodup : cg.actionTable.Nodup
  ids (v : UInt32) (id : ℕ) : cg.actionIds.lookup v = some id ↔ cg.actionTable[id]? = some v
  sites : Sites cg

section Tables

variable {b : Build} {cg cg' : ReverseCodegen} {t f : Target} {loc : ℕ}

theorem consistent_new : Consistent new where
  nodup := List.nodup_nil
  ids _ _ := iff_of_false nofun nofun
  sites := nofun

theorem Consistent.mem_iff (h : Consistent cg) {v : UInt32} :
    v ∈ cg.actionTable ↔ cg.actionIds.lookup v ≠ none := by
  rw [List.mem_iff_getElem?, Option.ne_none_iff_exists']
  exact exists_congr fun id => (h.ids v id).symm

theorem registerAction_consistent (h : Consistent cg) (retVal : UInt32) :
    Consistent (cg.registerAction retVal).2 := by
  have hsites := registerAction_sites h.sites retVal
  unfold registerAction at hsites ⊢
  split at hsites
  · exact h
  · rename_i hlookup
    have hnew : retVal ∉ cg.actionTable := fun hmem => h.mem_iff.1 hmem hlookup
    refine ⟨?_, fun v id => ?_, hsites⟩
    · rw [List.nodup_append]
      refine ⟨h.nodup, List.nodup_singleton _, ?_⟩
      rintro v hv _ (_ | ⟨_, ⟨⟩⟩) rfl
      exact hnew hv
    · rw [lookup_cons_ite, List.getElem?_append]
      by_cases hv : v = retVal
      · subst hv
        rw [if_pos rfl, Option.some_inj]
        constructor
        · rintro rfl
          rw [if_neg (lt_irrefl _), Nat.sub_self]
          rfl
        · intro hid
          split_ifs at hid with hlt
          · exact absurd (List.mem_of_getElem? hid) hnew
          · obtain ⟨hzero, -⟩ := List.getElem?_eq_some_iff.1 hid
            rw [List.length_singleton] at hzero
            omega
      · rw [if_neg hv, h.ids]
        split_ifs with hlt
        · exact Iff.rfl
        · rw [List.getElem?_eq_none (not_lt.1 hlt)]
          refine iff_of_false nofun fun hid => hv ?_
          exact List.mem_singleton.1 (List.mem_of_getElem? hid)

/-- The other methods leave the table and its index alone. -/
def SameTables (cg cg' : ReverseCodegen) : Prop :=
  cg'.actionTable = cg.actionTable ∧ cg'.actionIds = cg.actionIds

theorem Consistent.of_same (h : Consistent cg) (hsame : SameTables cg cg') (hs : Sites cg') :
    Consistent cg' := by
  obtain ⟨htable, hids⟩ := hsame
  exact ⟨htable ▸ h.nodup, fun v id => by rw [hids, htable, h.ids], hs⟩

theorem sameTables_resolveTarget (cg : ReverseCodegen) (t : Target) :
    SameTables cg (cg.resolveTarget t).2 := by
  rcases t with loc | id
  · exact ⟨rfl, rfl⟩
  · unfold resolveTarget resolveAction
    simp only
    split
    · split_ifs <;> exact ⟨rfl, rfl⟩
    · exact ⟨rfl, rfl⟩

theorem sameTables_ensureJumpableTarget (cg : ReverseCodegen) (t : Target) :
    SameTables cg (cg.ensureJumpableTarget t).2 := by
  have hsame := sameTables_resolveTarget cg t
  rw [ensureJumpableTarget_eq rfl]
  split_ifs <;> exact hsame

/-! ## Finding an action -/

/-- Where an action is found: at a cached site within reach, or at a fresh one. -/
structure Found (cg : ReverseCodegen) (id loc : ℕ) (cg' : ReverseCodegen) : Prop where
  ext : Extends cg cg'
  same : SameTables cg cg'
  sites : Sites cg'
  lt : loc < cg'.buffer.length
  near : cg'.locToJump loc ≤ MAX_JUMP
  is : Is cg' loc (.action id)

theorem resolveAction_found {id : ℕ} (hs : Sites cg) (hv : Valid cg (.action id)) :
    Found cg id (cg.resolveAction id).1 (cg.resolveAction id).2 := by
  have hfresh : Found cg id (cg.emitAction id).1 (cg.emitAction id).2 := by
    obtain ⟨hext, hsites, hloc, hlen, his⟩ := emitAction_sites hs hv
    refine ⟨hext, ⟨rfl, rfl⟩, hsites, by omega, ?_, hloc ▸ his⟩
    unfold locToJump currentLoc
    omega
  unfold resolveAction
  split
  · rename_i loc hcache
    split_ifs with hnear
    · obtain ⟨hlt, his⟩ := hs id loc hcache
      exact ⟨.refl cg, ⟨rfl, rfl⟩, hs, hlt, hnear, his⟩
    · exact hfresh
  · exact hfresh

end Tables

/-! ## The methods -/

/-- What a method leads to: more instructions, consistent tables, and a reachable state if it
fits. -/
structure Led (cg cg' : ReverseCodegen) : Prop where
  ext : Extends cg cg'
  consistent : Consistent cg'
  reach : Reachable cg → Fits cg' → Reachable cg'

section Methods

variable {b : Build} {cg cg' cg'' : ReverseCodegen} {t f : Target} {loc : ℕ}

theorem Led.refl (h : Consistent cg) : Led cg cg := ⟨.refl cg, h, fun hr _ => hr⟩

theorem Led.trans (h : Led cg cg') (h' : Led cg' cg'') : Led cg cg'' :=
  ⟨h.ext.trans h'.ext, h'.consistent,
    fun hr hfit => h'.reach (h.reach hr (h'.ext.fits hfit)) hfit⟩

theorem led_registerAction (h : Consistent cg) (retVal : UInt32) :
    Led cg (cg.registerAction retVal).2 ∧
      Valid (cg.registerAction retVal).2 (.action (cg.registerAction retVal).1) := by
  refine ⟨⟨?_, registerAction_consistent h retVal, fun hr _ => hr.registerAction retVal⟩, ?_⟩
  · unfold registerAction
    split
    · exact .refl cg
    · exact ⟨⟨[], rfl⟩, ⟨[retVal], rfl⟩⟩
  · show (cg.registerAction retVal).1 < (cg.registerAction retVal).2.actionTable.length
    unfold registerAction
    split
    · rename_i id hid
      exact (List.getElem?_eq_some_iff.1 ((h.ids _ _).1 hid)).1
    · simp

theorem led_addInstruction (h : Consistent cg) (insn : SockFilter) :
    Led cg (cg.addInstruction insn).2 where
  ext := extends_addInstruction cg insn
  consistent := h.of_same ⟨rfl, rfl⟩ (h.sites.mono (extends_addInstruction cg insn) rfl)
  reach hr hfit := hr.addInstruction insn hfit

theorem led_resolveTarget (h : Consistent cg) (hv : Valid cg t) :
    Led cg (cg.resolveTarget t).2 ∧
      Valid (cg.resolveTarget t).2 (.location (cg.resolveTarget t).1) := by
  rcases t with loc | id
  · exact ⟨.refl h, hv⟩
  · have hfound := resolveAction_found h.sites hv
    exact ⟨⟨hfound.ext, h.of_same hfound.same hfound.sites,
      fun hr hfit => hr.resolveTarget hv hfit⟩, hfound.lt⟩

theorem led_ensureJumpableTarget (h : Consistent cg) (hv : Valid cg t) :
    Led cg (cg.ensureJumpableTarget t).2 := by
  have hensured := ensured h.sites hv
  exact ⟨hensured.ext, h.of_same (sameTables_ensureJumpableTarget cg t) hensured.sites,
    fun hr hfit => hr.ensureJumpableTarget hv hfit⟩

theorem led_addJump {bpfType : UInt16} {k : UInt32} (h : Consistent cg) (ht : Valid cg t)
    (hf : Valid cg f) (hjump : addJump b cg bpfType k t f = .ok (loc, cg')) :
    Led cg cg' ∧ Valid cg' (.location loc) := by
  by_cases hne : t = f
  · have hresolve := led_resolveTarget h ht
    rw [addJump, if_pos hne] at hjump
    rwa [Except.ok.inj hjump] at hresolve
  · have hled₁ := led_ensureJumpableTarget h hf
    have hled₂ := led_ensureJumpableTarget hled₁.consistent (hled₁.ext.valid ht)
    have heq := addJump_eq b h.sites ht hf hne bpfType k
    simp only [hjump] at heq
    split_ifs at heq
    · exact absurd heq.symm panicWith_ne_ok
    · simp only [Except.ok.injEq, Prod.ext_iff, addInstruction_fst] at heq
      obtain ⟨hloc, hcg⟩ := heq
      have hled : Led cg cg' := by
        rw [hcg]
        exact hled₁.trans (hled₂.trans (led_addInstruction hled₂.consistent _))
      refine ⟨⟨hled.ext, hled.consistent, fun hr hfit => hr.addJump ht hf hjump hfit⟩, ?_⟩
      show loc < cg'.buffer.length
      rw [hcg, hloc, addInstruction_buffer]
      exact Nat.lt_succ_self _

theorem led_addJumpGe {than : UInt32} (h : Consistent cg) (ht : Valid cg t) (hf : Valid cg f)
    (hjump : addJumpGe b cg than t f = .ok (loc, cg')) :
    Led cg cg' ∧ Valid cg' (.location loc) := by
  unfold addJumpGe at hjump
  split_ifs at hjump
  · have hresolve := led_resolveTarget h ht
    rwa [Except.ok.inj hjump] at hresolve
  · exact led_addJump h ht hf hjump

/-- The instructions of a lowered filter, each put in front by itself. -/
theorem led_placeInsn (h : Consistent cg) (tl fl : ℕ) (insns : List SockFilter) :
    Led cg (insns.foldr (placeInsn tl fl) cg) ∧
      (insns.foldr (placeInsn tl fl) cg).buffer.length = insns.length + cg.buffer.length := by
  induction insns with
  | nil => exact ⟨.refl h, (Nat.zero_add _).symm⟩
  | cons insn insns ih =>
    obtain ⟨hled, hlen⟩ := ih
    obtain ⟨i, hi⟩ : ∃ i, placeInsn tl fl insn (insns.foldr (placeInsn tl fl) cg) =
        ((insns.foldr (placeInsn tl fl) cg).addInstruction i).2 := by
      unfold placeInsn
      split_ifs
      · exact ⟨_, rfl⟩
      · exact ⟨_, rfl⟩
      · exact ⟨_, rfl⟩
    rw [List.foldr_cons, hi]
    refine ⟨hled.trans (led_addInstruction hled.consistent i), ?_⟩
    rw [addInstruction_buffer, List.length_cons, List.length_cons, hlen]
    omega

theorem led_chainStep {next : Target} {m : ConditionalMapping} (h : Consistent cg)
    (hv : Valid cg next) (hstep : chainStep (next, cg) m = .ok (t, cg')) :
    Led cg cg' ∧ Valid cg' t := by
  obtain ⟨hled₁, hv₁⟩ := led_registerAction h (actionToRet m.action)
  have hled₂ := led_ensureJumpableTarget hled₁.consistent (hled₁.ext.valid hv)
  have hled₃ := led_ensureJumpableTarget hled₂.consistent (hled₂.ext.valid hv₁)
  simp only [chainStep, actionTarget, bind_eq_ok, Except.ok.injEq, Prod.mk.injEq] at hstep
  obtain ⟨insns, hlower, rfl, rfl⟩ := hstep
  obtain ⟨hled₄, hlen⟩ := led_placeInsn hled₃.consistent _ _ insns
  refine ⟨hled₁.trans (hled₂.trans (hled₃.trans hled₄)), ?_⟩
  obtain ⟨new, -, rfl, -⟩ := lowerExprWithPlaceholders_spec hlower
  refine currentLoc_lt (n := 0) ?_
  rw [hlen, List.length_append]
  exact Nat.lt_of_lt_of_le (by simp [exits]) (Nat.le_add_right _ _)

theorem led_emitConditionalChain {ms : List ConditionalMapping} {fallback : Action}
    (h : Consistent cg) (hchain : cg.emitConditionalChain ms fallback = .ok (loc, cg')) :
    Led cg cg' ∧ Valid cg' (.location loc) := by
  have hfold : ∀ {ms : List ConditionalMapping} {next t : Target} {cg cg' : ReverseCodegen},
      Consistent cg → Valid cg next →
      ms.foldrM (fun m state => chainStep state m) (next, cg) = .ok (t, cg') →
      Led cg cg' ∧ Valid cg' t := by
    intro ms
    induction ms with
    | nil =>
      intro next t cg cg' h hv hfold
      obtain ⟨rfl, rfl⟩ := Prod.mk.inj (Except.ok.inj hfold)
      exact ⟨.refl h, hv⟩
    | cons m ms ih =>
      intro next t cg cg' h hv hfold
      simp only [List.foldrM_cons, bind_eq_ok] at hfold
      obtain ⟨⟨t₁, cg₁⟩, hms, hm⟩ := hfold
      obtain ⟨hled₁, hv₁⟩ := ih h hv hms
      obtain ⟨hled₂, hv₂⟩ := led_chainStep hled₁.consistent hv₁ hm
      exact ⟨hled₁.trans hled₂, hv₂⟩
  simp only [emitConditionalChain, List.foldlM_reverse, bind_eq_ok, Except.ok.injEq] at hchain
  obtain ⟨⟨t, cg₂⟩, hms, hr⟩ := hchain
  obtain ⟨hled₁, hv₁⟩ := led_registerAction h (actionToRet fallback)
  obtain ⟨hled₂, hv₂⟩ := hfold hled₁.consistent hv₁ hms
  obtain ⟨hled₃, hv₃⟩ := led_resolveTarget hled₂.consistent hv₂
  rw [hr] at hled₃ hv₃
  exact ⟨hled₁.trans (hled₂.trans hled₃), hv₃⟩

theorem led_generateAction {range : SyscallRange} (h : Consistent cg)
    (hgen : cg.generateAction range = .ok (t, cg')) : Led cg cg' ∧ Valid cg' t := by
  unfold generateAction at hgen
  cases haction : range.action with
  | unconditional action =>
    rw [haction] at hgen
    have hregister := led_registerAction h (actionToRet action)
    obtain ⟨rfl, rfl⟩ := Prod.mk.inj (Except.ok.inj hgen)
    exact hregister
  | conditional ms fallback =>
    rw [haction] at hgen
    obtain ⟨⟨loc, cg₁⟩, hchain, hgen⟩ := bind_eq_ok.1 hgen
    obtain ⟨rfl, rfl⟩ := Prod.mk.inj (Except.ok.inj hgen)
    exact led_emitConditionalChain h hchain

/-! ## The tree -/

variable {entry top second : BufEntry} {rest stack : List BufEntry}

theorem led_joinEntries {level : ℕ} (h : Consistent cg) (htop : Valid cg top.action)
    (hsecond : Valid cg second.action)
    (hjoin : joinEntries b cg top second level = .ok (entry, cg')) :
    Led cg cg' ∧ Valid cg' entry.action := by
  obtain ⟨⟨loc, cg₁⟩, hjump, hjoin⟩ := bind_eq_ok.1 hjoin
  obtain ⟨rfl, rfl⟩ := Prod.mk.inj (Except.ok.inj hjoin)
  exact led_addJumpGe h hsecond htop hjump

theorem led_mergeEqualLevels : ∀ {rest stack : List BufEntry} {top : BufEntry}
    {cg cg' : ReverseCodegen}, Consistent cg → (∀ e ∈ top :: rest, Valid cg e.action) →
    mergeEqualLevels b cg top rest = .ok (stack, cg') →
    Led cg cg' ∧ ∀ e ∈ stack, Valid cg' e.action
  | [], stack, top, cg, cg', h, hv, hmerge => by
    obtain ⟨rfl, rfl⟩ := Prod.mk.inj (Except.ok.inj hmerge)
    exact ⟨.refl h, hv⟩
  | second :: rest, stack, top, cg, cg', h, hv, hmerge => by
    unfold mergeEqualLevels at hmerge
    split_ifs at hmerge
    · obtain ⟨⟨e, cg₁⟩, hjoin, hmerge⟩ := bind_eq_ok.1 hmerge
      obtain ⟨hled₁, hv₁⟩ := led_joinEntries h (hv top (by simp)) (hv second (by simp)) hjoin
      have hrest : ∀ e' ∈ e :: rest, Valid cg₁ e'.action := List.forall_mem_cons.2
        ⟨hv₁, fun e' he' => hled₁.ext.valid (hv e' (by simp [he']))⟩
      obtain ⟨hled₂, hv₂⟩ := led_mergeEqualLevels hled₁.consistent hrest hmerge
      exact ⟨hled₁.trans hled₂, hv₂⟩
    · obtain ⟨rfl, rfl⟩ := Prod.mk.inj (Except.ok.inj hmerge)
      exact ⟨.refl h, hv⟩

theorem led_mergeAll : ∀ {rest : List BufEntry} {top root : BufEntry} {cg cg' : ReverseCodegen},
    Consistent cg → (∀ e ∈ top :: rest, Valid cg e.action) →
    mergeAll b cg top rest = .ok (root, cg') → Led cg cg' ∧ Valid cg' root.action
  | [], top, root, cg, cg', h, hv, hmerge => by
    obtain ⟨rfl, rfl⟩ := Prod.mk.inj (Except.ok.inj hmerge)
    exact ⟨.refl h, hv top (by simp)⟩
  | second :: rest, top, root, cg, cg', h, hv, hmerge => by
    obtain ⟨⟨e, cg₁⟩, hjoin, hmerge⟩ := bind_eq_ok.1 hmerge
    obtain ⟨hled₁, hv₁⟩ := led_joinEntries h (hv top (by simp)) (hv second (by simp)) hjoin
    have hrest : ∀ e' ∈ e :: rest, Valid cg₁ e'.action := List.forall_mem_cons.2
      ⟨hv₁, fun e' he' => hled₁.ext.valid (hv e' (by simp [he']))⟩
    obtain ⟨hled₂, hv₂⟩ := led_mergeAll hled₁.consistent hrest hmerge
    exact ⟨hled₁.trans hled₂, hv₂⟩

theorem led_ruleStep {range : SyscallRange} (h : Consistent cg)
    (hv : ∀ e ∈ rest, Valid cg e.action) (hstep : ruleStep b (rest, cg) range = .ok (stack, cg')) :
    Led cg cg' ∧ ∀ e ∈ stack, Valid cg' e.action := by
  obtain ⟨⟨action, cg₁⟩, hgen, hstep⟩ := bind_eq_ok.1 hstep
  obtain ⟨hled₁, hv₁⟩ := led_generateAction h hgen
  have hrest : ∀ e ∈ rest, Valid cg₁ e.action := fun e he => hled₁.ext.valid (hv e he)
  rcases rest with _ | ⟨top, rest⟩
  · obtain ⟨rfl, rfl⟩ := Prod.mk.inj (Except.ok.inj hstep)
    exact ⟨hled₁, List.forall_mem_singleton.2 hv₁⟩
  · simp only at hstep
    split_ifs at hstep
    · obtain ⟨-, -, hstep⟩ := bind_eq_ok.1 hstep
      obtain ⟨rfl, rfl⟩ := Prod.mk.inj (Except.ok.inj hstep)
      exact ⟨hled₁, List.forall_mem_cons.2 ⟨hrest top (by simp),
        fun e he => hrest e (List.mem_cons_of_mem _ he)⟩⟩
    · obtain ⟨⟨buf, cg₂⟩, hmerge, hstep⟩ := bind_eq_ok.1 hstep
      obtain ⟨rfl, rfl⟩ := Prod.mk.inj (Except.ok.inj hstep)
      obtain ⟨hled₂, hv₂⟩ := led_mergeEqualLevels hled₁.consistent hrest hmerge
      exact ⟨hled₁.trans hled₂, List.forall_mem_cons.2 ⟨hled₂.ext.valid hv₁, hv₂⟩⟩

/-- The loop over the ranges, the last one first. -/
theorem led_ruleSteps : ∀ {ranges : List SyscallRange} {stack : List BufEntry}
    {cg cg' : ReverseCodegen}, Consistent cg →
    ranges.foldrM (fun range state => ruleStep b state range) ([], cg) = .ok (stack, cg') →
    Led cg cg' ∧ ∀ e ∈ stack, Valid cg' e.action
  | [], stack, cg, cg', h, hloop => by
    obtain ⟨rfl, rfl⟩ := Prod.mk.inj (Except.ok.inj hloop)
    exact ⟨.refl h, fun _ he => absurd he List.not_mem_nil⟩
  | range :: ranges, stack, cg, cg', h, hloop => by
    rw [List.foldrM_cons] at hloop
    obtain ⟨⟨stack₁, cg₁⟩, hranges, hstep⟩ := bind_eq_ok.1 hloop
    obtain ⟨hled₁, hv₁⟩ := led_ruleSteps h hranges
    obtain ⟨hled₂, hv₂⟩ := led_ruleStep hled₁.consistent hv₁ hstep
    exact ⟨hled₁.trans hled₂, hv₂⟩

theorem led_generateRules {ranges : List SyscallRange} (h : Consistent cg)
    (hgen : cg.generateRules b ranges = .ok (t, cg')) : Led cg cg' ∧ Valid cg' t := by
  unfold generateRules at hgen
  split_ifs at hgen
  · exact absurd hgen nofun
  rw [List.foldlM_reverse] at hgen
  obtain ⟨⟨stack, cg₁⟩, hloop, hgen⟩ := bind_eq_ok.1 hgen
  obtain ⟨hled₁, hv₁⟩ := led_ruleSteps h hloop
  rcases stack with _ | ⟨top, rest⟩
  · exact absurd hgen nofun
  simp only at hgen
  split_ifs at hgen
  · exact absurd hgen nofun
  obtain ⟨⟨root, cg₂⟩, hmerge, hgen⟩ := bind_eq_ok.1 hgen
  obtain ⟨rfl, rfl⟩ := Prod.mk.inj (Except.ok.inj hgen)
  obtain ⟨hled₂, hv₂⟩ := led_mergeAll hled₁.consistent hv₁ hmerge
  exact ⟨hled₁.trans hled₂, hv₂⟩

theorem led_emitArchPrelude (h : Consistent cg) : Led cg cg.emitArchPrelude := by
  have hstep : ∀ {cg : ReverseCodegen} (insn : SockFilter), Consistent cg →
      Led cg (cg.addInstruction insn).2 := fun insn h => led_addInstruction h insn
  have h₁ := hstep ⟨BPF_LD_W_ABS, 0, 0, OFFSET_NR⟩ h
  have h₂ := hstep ⟨BPF_RET_K, 0, 0, SECCOMP_RET_KILL_PROCESS⟩ h₁.consistent
  have h₃ := hstep ⟨BPF_JMP_JEQ_K, 1, 0, AUDIT_ARCH_X86_64⟩ h₂.consistent
  exact h₁.trans (h₂.trans (h₃.trans (hstep ⟨BPF_LD_W_ABS, 0, 0, OFFSET_ARCH⟩ h₃.consistent)))

end Methods

/-! ## Reachable states -/

section Reachable

variable {cg : ReverseCodegen}

theorem Reachable.consistent (h : Reachable cg) : Consistent cg := by
  induction h with
  | new => exact consistent_new
  | registerAction _ retVal ih => exact (led_registerAction ih retVal).1.consistent
  | addInstruction _ insn _ ih => exact (led_addInstruction ih insn).consistent
  | resolveTarget _ hv _ ih => exact (led_resolveTarget ih hv).1.consistent
  | ensureJumpableTarget _ hv _ ih => exact (led_ensureJumpableTarget ih hv).consistent
  | addJump _ ht hf hjump _ ih => exact (led_addJump ih ht hf hjump).1.consistent

/-- A whole generation stays among them until it takes the buffer for the program. -/
theorem Reachable.generated {b : Build} {policy : Policy} {prog : List SockFilter}
    {left : ReverseCodegen} (h : Reachable cg) (hgen : cg.generate b policy = .ok (prog, left)) :
    ∃ last, Reachable last ∧ prog = last.buffer ∧ left = { last with buffer := [] } := by
  obtain ⟨ranges, -, hgen⟩ := bind_eq_ok.1 hgen
  obtain ⟨⟨root, cg₁⟩, hrules, hgen⟩ := bind_eq_ok.1 hgen
  simp only at hgen
  split_ifs at hgen with hlarge
  · exact absurd hgen nofun
  obtain ⟨rfl, rfl⟩ := Prod.mk.inj (Except.ok.inj hgen)
  obtain ⟨hled₁, hroot⟩ := led_generateRules h.consistent hrules
  have hled₂ := (led_resolveTarget hled₁.consistent hroot).1
  have hled₃ := led_emitArchPrelude hled₂.consistent
  have hfit : Fits (cg₁.resolveTarget root).2.emitArchPrelude := by
    unfold Fits
    omega
  exact ⟨_, (hled₁.trans (hled₂.trans hled₃)).reach h hfit, rfl, rfl⟩

/-- The action table numbers distinct return values and the index finds each number; a cached
location is the return of its action; resolving an action comes back with a location of such a
return no further behind than a jump reaches, the earlier instructions being what they were; and
`generate` gives away the buffer of such a state. -/
theorem Reachable.resolves (h : Reachable cg) :
    cg.actionTable.Nodup ∧
      (∀ v id, cg.actionIds.lookup v = some id ↔ cg.actionTable[id]? = some v) ∧
      (∀ id loc, cg.actionLocCache.lookup id = some loc → loc < cg.buffer.length ∧
        ∃ v, cg.actionTable[id]? = some v ∧ cg.insnAt loc = some ⟨BPF_RET_K, 0, 0, v⟩) ∧
      (∀ (id : ℕ) (v : UInt32), cg.actionTable[id]? = some v →
        ∃ loc cg', cg.resolveAction id = (loc, cg') ∧ loc < cg'.buffer.length ∧
          cg'.locToJump loc ≤ 255 ∧ cg'.insnAt loc = some ⟨BPF_RET_K, 0, 0, v⟩ ∧
          cg.buffer.length ≤ cg'.buffer.length ∧
          (∀ earlier < cg.buffer.length, cg'.insnAt earlier = cg.insnAt earlier) ∧
          Consistent cg') ∧
      ∀ (b : Build) (policy : Policy) (prog : List SockFilter) (left : ReverseCodegen),
        cg.generate b policy = .ok (prog, left) →
          ∃ last, Reachable last ∧ prog = last.buffer ∧ left = { last with buffer := [] } := by
  obtain ⟨hnodup, hids, hsites⟩ := h.consistent
  refine ⟨hnodup, hids, hsites, fun id v hid => ?_, fun b policy prog left => h.generated⟩
  have hfound := resolveAction_found hsites (List.getElem?_eq_some_iff.1 hid).1
  obtain ⟨v', hid', hret⟩ := hfound.is
  obtain rfl : v' = v := by
    rw [hfound.same.1, hid] at hid'
    exact (Option.some.inj hid').symm
  exact ⟨_, _, rfl, hfound.lt, hfound.near, hret, hfound.ext.length_le,
    fun earlier hlt => hfound.ext.insnAt_eq hlt,
    h.consistent.of_same hfound.same hfound.sites⟩

/-- A return one instruction too far behind is emitted anew. -/
theorem driftedState_resolves :
    ∃ loc cg', (limitState.emitStmt BPF_LD_W_ABS OFFSET_NR).2.resolveAction 0 = (loc, cg') ∧
      cg'.locToJump loc ≤ 255 ∧ cg'.insnAt loc = some ⟨BPF_RET_K, 0, 0, SECCOMP_RET_ALLOW⟩ ∧
      Consistent cg' := by
  have hdrifted : Reachable (limitState.emitStmt BPF_LD_W_ABS OFFSET_NR).2 :=
    limitState_reachable.addInstruction _ (by unfold Fits; decide +kernel)
  obtain ⟨-, -, -, hresolve, -⟩ := hdrifted.resolves
  obtain ⟨loc, cg', heq, -, hnear, hret, -, -, hcons⟩ :=
    hresolve 0 SECCOMP_RET_ALLOW (by decide +kernel)
  exact ⟨loc, cg', heq, hnear, hret, hcons⟩

/-- What `generate` leaves still remembers where returns were in the buffer that it took: the
cached location of the only action is that of no instruction, and is what resolving gives. -/
theorem generated_stale :
    ∃ prog left, new.generate .debug ⟨[], .killProcess⟩ = .ok (prog, left) ∧
      left.actionTable = [SECCOMP_RET_KILL_PROCESS] ∧ left.actionLocCache.lookup 0 = some 0 ∧
      left.insnAt 0 = none ∧ left.resolveAction 0 = (0, left) :=
  ⟨_, _, rfl, rfl, rfl, rfl, rfl⟩

end Reachable

end Pnut.Kafel.ReverseCodegen
