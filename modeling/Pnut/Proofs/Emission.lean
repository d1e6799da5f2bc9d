import Pnut.Kafel.Reverse
import Pnut.Proofs.Lowering

/-!
# Where a jump goes

Every step of the code generator puts instructions in front of the buffer, so a location keeps
what runs from it. A target delivers a verdict, and resolving it gives a location that delivers
the same one, or an 8-bit displacement was too long.
-/

namespace Pnut.Kafel

open Bpf (SockFilter eval codeAt codeAt_append codeAt_cons codeAt_top Closed closed_cons)
open Libc

/-! ## What the program decides -/

section Verdicts

variable (load : UInt32 → UInt32)

/-- The mappings' verdict: that of the first whose code goes to its action, else `v`. -/
def chainVerdict (ms : List ConditionalMapping) (v : UInt32) : UInt32 :=
  match ms.find? fun m => chainTruth (readArg load) m.expr with
  | some m => actionToRet m.action
  | none => v

theorem chainVerdict_cons (m : ConditionalMapping)
    (ms : List ConditionalMapping) (v : UInt32) :
    chainVerdict load (m :: ms) v =
      if chainTruth (readArg load) m.expr then actionToRet m.action
      else chainVerdict load ms v := by
  unfold chainVerdict
  rw [List.find?_cons]
  cases chainTruth (readArg load) m.expr <;> rfl

/-- The verdict of a range's rule. -/
def rangeVerdict (range : SyscallRange) : UInt32 :=
  match range.action with
  | .unconditional action => actionToRet action
  | .conditional ms fallback => chainVerdict load ms (actionToRet fallback)

end Verdicts

/-- The filters of a range. -/
def SyscallRange.mappings (range : SyscallRange) : List ConditionalMapping :=
  match range.action with
  | .unconditional _ => []
  | .conditional ms _ => ms

/-- A range that the loop takes: its filters read known arguments, and it has one when it is
conditional. -/
structure SyscallRange.Proper (args : List UInt8) (r : SyscallRange) : Prop where
  args : ∀ m ∈ r.mappings, m.expr.argIndices ⊆ args
  ne_nil : ∀ ms fallback, r.action = .conditional ms fallback → ms ≠ []

namespace ReverseCodegen

/-- `cg'` is `cg` with instructions in front and actions registered. -/
structure Extends (cg cg' : ReverseCodegen) : Prop where
  buffer : ∃ new, cg'.buffer = new ++ cg.buffer
  table : ∃ more, cg'.actionTable = cg.actionTable ++ more

section Extends

variable {cg cg' cg'' : ReverseCodegen}

@[refl] theorem Extends.refl (cg : ReverseCodegen) : Extends cg cg := ⟨⟨[], rfl⟩, ⟨[], by simp⟩⟩

@[trans] theorem Extends.trans (h : Extends cg cg') (h' : Extends cg' cg'') : Extends cg cg'' := by
  obtain ⟨⟨new, hb⟩, ⟨more, ht⟩⟩ := h
  obtain ⟨⟨new', hb'⟩, ⟨more', ht'⟩⟩ := h'
  exact ⟨⟨new' ++ new, by rw [hb', hb, List.append_assoc]⟩,
    ⟨more ++ more', by rw [ht', ht, List.append_assoc]⟩⟩

theorem Extends.length_le (h : Extends cg cg') : cg.buffer.length ≤ cg'.buffer.length := by
  obtain ⟨new, hb⟩ := h.buffer
  rw [hb, List.length_append]
  omega

theorem Extends.table_get (h : Extends cg cg') {id : ℕ} {v : UInt32}
    (hv : cg.actionTable[id]? = some v) : cg'.actionTable[id]? = some v := by
  obtain ⟨more, ht⟩ := h.table
  obtain ⟨hlt, -⟩ := List.getElem?_eq_some_iff.1 hv
  rw [ht, List.getElem?_append_left hlt, hv]

theorem Extends.codeAt_eq (h : Extends cg cg') {loc : ℕ} (hlt : loc < cg.buffer.length) :
    codeAt cg'.buffer.length cg'.buffer loc = codeAt cg.buffer.length cg.buffer loc := by
  obtain ⟨new, hb⟩ := h.buffer
  rw [hb, List.length_append, codeAt_append hlt]

end Extends

/-! ## Targets -/

/-- A target is a location of the buffer or a registered action. -/
def Valid (cg : ReverseCodegen) : Target → Prop
  | .location loc => loc < cg.buffer.length
  | .action id => id < cg.actionTable.length

/-- A jump to the target returns `v`, when it is made with `a` in the accumulator. -/
def Delivers (load : UInt32 → UInt32) (cg : ReverseCodegen) (a v : UInt32) : Target → Prop
  | .location loc =>
    loc < cg.buffer.length ∧ eval load (codeAt cg.buffer.length cg.buffer loc) 0 a = some v
  | .action id => cg.actionTable[id]? = some v

/-- A location is an `i32`, so a buffer holds no more; the displacement of a `BPF_JA` fits its 32
bits then. -/
def Fits (cg : ReverseCodegen) : Prop := cg.buffer.length ≤ 2 ^ 31

section Targets

variable {cg cg' : ReverseCodegen} {load : UInt32 → UInt32} {a v : UInt32} {t : Target}

theorem Extends.valid (h : Extends cg cg') (hv : Valid cg t) : Valid cg' t := by
  cases t with
  | location loc => exact lt_of_lt_of_le hv h.length_le
  | action id =>
    obtain ⟨more, ht⟩ := h.table
    simp only [Valid, ht, List.length_append] at hv ⊢
    omega

theorem Extends.delivers (h : Extends cg cg') (hd : Delivers load cg a v t) :
    Delivers load cg' a v t := by
  cases t with
  | location loc => exact ⟨lt_of_lt_of_le hd.1 h.length_le, by rw [h.codeAt_eq hd.1, hd.2]⟩
  | action id => exact h.table_get hd

theorem Extends.fits (h : Extends cg cg') (hf : Fits cg') : Fits cg :=
  h.length_le.trans hf

end Targets

/-! ## The state -/

/-- What one instruction of a program may be. -/
inductive Emitted (args : List UInt8) (i : SockFilter) : Prop where
  | load (h : i.code = Bpf.ldWAbs) (hk : i.k = OFFSET_NR ∨ i.k = OFFSET_ARCH ∨
      ∃ idx ∈ args, ∃ high : Bool, i.k = OFFSET_ARGS + idx.toUInt32 * 8 + if high then 4 else 0)
  | mask (h : i.code = Bpf.aluAndK)
  | jump (h : i.code = Bpf.jmpJa)
  | cond (h : i.code = Bpf.jmpJeqK ∨ i.code = Bpf.jmpJgtK ∨ i.code = Bpf.jmpJgeK ∨
      i.code = Bpf.jmpJsetK)
  | ret (h : i.code = Bpf.retK) (hk : ∃ action, i.k = actionToRet action)

/-- What every step keeps: the code so far is closed, the action table and its index agree, and a
cached location is a return of its action. -/
structure WellFormed (args : List UInt8) (cg : ReverseCodegen) : Prop where
  closed : Closed cg.buffer
  emitted : ∀ i ∈ cg.buffer, Emitted args i
  table : ∀ v ∈ cg.actionTable, ∃ action, v = actionToRet action
  ids : ∀ v id, cg.actionIds.lookup v = some id → cg.actionTable[id]? = some v
  cache : ∀ id loc, cg.actionLocCache.lookup id = some loc → loc < cg.buffer.length ∧
    ∃ v, cg.actionTable[id]? = some v ∧
      ∀ load a, eval load (codeAt cg.buffer.length cg.buffer loc) 0 a = some v

theorem wellFormed_new (args : List UInt8) : WellFormed args .new where
  closed := trivial
  emitted := by simp [new]
  table := by simp [new]
  ids := by simp [new]
  cache := by simp [new]

/-- A step: it extends the state and keeps it well formed. -/
structure Step (args : List UInt8) (cg cg' : ReverseCodegen) : Prop where
  ext : Extends cg cg'
  wf : WellFormed args cg'

theorem Step.trans {args : List UInt8} {cg cg' cg'' : ReverseCodegen} (h : Step args cg cg')
    (h' : Step args cg' cg'') : Step args cg cg'' := ⟨h.ext.trans h'.ext, h'.wf⟩

section Steps

variable {args : List UInt8} {cg cg' : ReverseCodegen}

/-- `i` put in front of a well-formed buffer. -/
theorem addInstruction_step {i : SockFilter} (hwf : WellFormed args cg)
    (hin : i.Within cg.buffer.length) (hi : Emitted args i) :
    Step args cg (cg.addInstruction i).2 where
  ext := ⟨⟨[i], rfl⟩, ⟨[], by simp [addInstruction]⟩⟩
  wf :=
    { closed := ⟨hin, hwf.closed⟩
      emitted := by
        simp only [addInstruction, List.mem_cons, forall_eq_or_imp]
        exact ⟨hi, hwf.emitted⟩
      table := hwf.table
      ids := hwf.ids
      cache := fun id loc h => by
        obtain ⟨hlt, v, hv, hret⟩ := hwf.cache id loc h
        refine ⟨Nat.lt_succ_of_lt hlt, v, hv, fun load a => ?_⟩
        simp only [addInstruction, List.length_cons, codeAt_cons hlt, hret] }

@[simp] theorem addInstruction_fst (cg : ReverseCodegen) (i : SockFilter) :
    (cg.addInstruction i).1 = cg.buffer.length := by
  simp [addInstruction, currentLoc]

@[simp] theorem addInstruction_buffer (cg : ReverseCodegen) (i : SockFilter) :
    (cg.addInstruction i).2.buffer = i :: cg.buffer := rfl

/-- The location `resolveTarget` gives delivers what the target did. -/
structure Resolved (args : List UInt8) (cg : ReverseCodegen) (t : Target) (loc : ℕ)
    (cg' : ReverseCodegen) : Prop where
  step : Step args cg cg'
  lt : loc < cg'.buffer.length
  delivers : Fits cg' → ∀ {load a v}, Delivers load cg a v t → Delivers load cg' a v (.location loc)

theorem emitAction_spec {id : ℕ} (hwf : WellFormed args cg) (hv : Valid cg (.action id)) :
    Resolved args cg (.action id) (cg.emitAction id).1 (cg.emitAction id).2 := by
  obtain ⟨v, hid⟩ : ∃ v, cg.actionTable[id]? = some v := ⟨_, List.getElem?_eq_getElem hv⟩
  have hget : cg.actionTable.getD id 0 = v := by simp [List.getD, hid]
  obtain ⟨action, haction⟩ := hwf.table v (List.mem_of_getElem? hid)
  have hstep := addInstruction_step (i := ⟨BPF_RET_K, 0, 0, v⟩) hwf (.ret BPF_RET_K_eq)
    (.ret BPF_RET_K_eq ⟨action, haction⟩)
  have hret : ∀ load a, eval load (codeAt (cg.buffer.length + 1)
      (⟨BPF_RET_K, 0, 0, v⟩ :: cg.buffer) cg.buffer.length) 0 a = some v := fun load a => by
    rw [codeAt_top, BPF_RET_K_eq, Bpf.eval_of_act_ret (Bpf.act_ret ..)]
  simp only [emitAction, emitStmt, hget, addInstruction_fst]
  refine ⟨⟨⟨hstep.ext.buffer, hstep.ext.table⟩,
    ⟨hstep.wf.closed, hstep.wf.emitted, hstep.wf.table, hstep.wf.ids, ?_⟩⟩, ?_, ?_⟩
  · intro id' loc h
    rw [lookup_cons_ite] at h
    split_ifs at h with he
    · obtain ⟨rfl, rfl⟩ : id' = id ∧ cg.buffer.length = loc := ⟨he, by simpa using h⟩
      exact ⟨by simp [addInstruction], v, hid, hret⟩
    · exact hstep.wf.cache id' loc h
  · simp [addInstruction]
  · intro _ load a v' hd
    obtain rfl : v = v' := by simpa [Delivers, hid] using hd
    exact ⟨by simp [addInstruction], hret load a⟩

theorem resolveTarget_spec {t : Target} (hwf : WellFormed args cg) (hv : Valid cg t) :
    Resolved args cg t (cg.resolveTarget t).1 (cg.resolveTarget t).2 := by
  cases t with
  | location loc => exact ⟨⟨.refl cg, hwf⟩, hv, fun _ _ _ _ hd => hd⟩
  | action id =>
    simp only [resolveTarget, resolveAction]
    split
    · rename_i loc hloc
      split_ifs
      · obtain ⟨hlt, v, hid, hret⟩ := hwf.cache id loc hloc
        refine ⟨⟨.refl cg, hwf⟩, hlt, fun _ load a v' hd => ⟨hlt, ?_⟩⟩
        obtain rfl : v = v' := by simpa [Delivers, hid] using hd
        exact hret load a
      · exact emitAction_spec hwf hv
    · exact emitAction_spec hwf hv

theorem Resolved.trans {t : Target} {loc loc' : ℕ} {cg'' : ReverseCodegen}
    (h : Resolved args cg t loc cg') (h' : Resolved args cg' (.location loc) loc' cg'') :
    Resolved args cg t loc' cg'' :=
  ⟨h.step.trans h'.step, h'.lt, fun hf _ _ _ hd =>
    h'.delivers hf (h.delivers (h'.step.ext.fits hf) hd)⟩

/-- A long jump to `loc` in front of the buffer. -/
theorem addInstruction_ja {loc : ℕ} (hwf : WellFormed args cg) (hlt : loc < cg.buffer.length) :
    Resolved args cg (.location loc) cg.buffer.length
      (cg.addInstruction ⟨BPF_JMP_JA, 0, 0, UInt32.ofNat (cg.locToJump loc)⟩).2 := by
  have hmod : (UInt32.ofNat (cg.locToJump loc)).toNat = cg.locToJump loc % 2 ^ 32 :=
    UInt32.toNat_ofNat' ..
  have hdist : cg.locToJump loc = cg.buffer.length - 1 - loc := rfl
  have hk : (UInt32.ofNat (cg.locToJump loc)).toNat < cg.buffer.length := by
    have := Nat.mod_le (cg.locToJump loc) (2 ^ 32)
    omega
  refine ⟨addInstruction_step hwf (.ja BPF_JMP_JA_eq hk) (.jump BPF_JMP_JA_eq), by simp,
    fun hf load a v hd => ⟨by simp, ?_⟩⟩
  simp only [Fits, addInstruction_buffer, List.length_cons] at hf ⊢
  rw [codeAt_top, BPF_JMP_JA_eq, Bpf.eval_of_act_go (Bpf.act_ja ..), hmod,
    Nat.mod_eq_of_lt (by omega)]
  exact hd.2

theorem ensureJumpableTarget_spec {t : Target} (hwf : WellFormed args cg) (hv : Valid cg t) :
    Resolved args cg t (cg.ensureJumpableTarget t).1 (cg.ensureJumpableTarget t).2 := by
  have h := resolveTarget_spec hwf hv
  unfold ensureJumpableTarget
  simp only []
  split_ifs
  · rw [addInstruction_fst]
    exact h.trans (addInstruction_ja h.step.wf h.lt)
  · exact h

/-! ## Jumps -/

/-- A comparison of the accumulator in front of the buffer. Its displacements are narrowed to
eight bits, so it is well formed in any case, and goes to its targets when they fit. -/
theorem addInstruction_jge {tloc floc : ℕ} {k : UInt32} (hwf : WellFormed args cg)
    (ht : tloc < cg.buffer.length) (hf : floc < cg.buffer.length) :
    Step args cg (cg.addInstruction ⟨BPF_JMP ||| BPF_JGE, UInt8.ofNat (cg.locToJump tloc),
      UInt8.ofNat (cg.locToJump floc), k⟩).2 ∧ (cg.locToJump tloc ≤ MAX_JUMP →
      cg.locToJump floc ≤ MAX_JUMP → ∀ {load a v},
        Delivers load cg a v (.location (if k ≤ a then tloc else floc)) →
        Delivers load (cg.addInstruction ⟨BPF_JMP ||| BPF_JGE, UInt8.ofNat (cg.locToJump tloc),
          UInt8.ofNat (cg.locToJump floc), k⟩).2 a v (.location cg.buffer.length)) := by
  have hmod (x : ℕ) : (UInt8.ofNat x).toNat = x % 2 ^ 8 := UInt8.toNat_ofNat' ..
  have within {l : ℕ} (hlt : l < cg.buffer.length) :
      (UInt8.ofNat (cg.locToJump l)).toNat < cg.buffer.length := by
    have := Nat.mod_le (cg.locToJump l) (2 ^ 8)
    rw [hmod]
    unfold locToJump currentLoc at this ⊢
    omega
  refine ⟨addInstruction_step hwf (.cond (by simp) (within ht) (within hf)) (.cond (by simp)),
    fun hjt hjf load a v hd => ⟨by simp, ?_⟩⟩
  have fits8 {x : ℕ} (hx : x ≤ MAX_JUMP) : (UInt8.ofNat x).toNat = x := by
    rw [hmod]
    unfold MAX_JUMP at hx
    omega
  rw [addInstruction_buffer, List.length_cons, codeAt_top, BPF_JMP_or_JGE,
    Bpf.eval_jump (Bpf.condition_jge ..) (fits8 hjt) (fits8 hjf)]
  simpa using hd.2

theorem addJump_spec {b : Build} {k : UInt32} {t f : Target} {loc : ℕ} (hwf : WellFormed args cg)
    (ht : Valid cg t) (hf : Valid cg f) (h : addJump b cg BPF_JGE k t f = .ok (loc, cg')) :
    Step args cg cg' ∧ loc < cg'.buffer.length ∧ (b.debugAssertions = true → Fits cg' →
      ∀ {load a v}, Delivers load cg a v (if k ≤ a then t else f) →
        Delivers load cg' a v (.location loc)) := by
  unfold addJump at h
  split_ifs at h with he
  · subst he
    simp only [Except.ok.injEq] at h
    have hr := resolveTarget_spec hwf ht
    rw [h] at hr
    exact ⟨hr.step, hr.lt, fun _ hfit _ _ _ hd => hr.delivers hfit (by simpa using hd)⟩
  · have h₁ := ensureJumpableTarget_spec hwf hf
    have h₂ := ensureJumpableTarget_spec h₁.step.wf (h₁.step.ext.valid ht)
    have h₃ := ensureJumpableTarget_spec (t := .location _) h₂.step.wf h₂.lt
    simp only [] at h
    split_ifs at h with hjt hjf
    · simp at h
    · simp at h
    · simp only [Except.ok.injEq, Prod.ext_iff, addInstruction_fst] at h
      obtain ⟨rfl, rfl⟩ := h
      have hext := h₂.step.ext.trans h₃.step.ext
      have hjge := addInstruction_jge (k := k) h₃.step.wf h₃.lt
        (lt_of_lt_of_le h₁.lt hext.length_le)
      refine ⟨h₁.step.trans (h₂.step.trans (h₃.step.trans hjge.1)), by simp,
        fun hb hfit load a v hd => ?_⟩
      simp only [hb, Bool.true_and, decide_eq_true_eq, not_lt] at hjt hjf
      have hfit := hjge.1.ext.fits hfit
      refine hjge.2 hjt hjf ?_
      split_ifs at hd ⊢ with hk
      · exact h₃.delivers hfit (h₂.delivers (h₃.step.ext.fits hfit) (h₁.step.ext.delivers hd))
      · exact hext.delivers (h₁.delivers (hext.fits hfit) hd)

theorem addJumpGe_spec {b : Build} {k : UInt32} {t f : Target} {loc : ℕ} (hwf : WellFormed args cg)
    (ht : Valid cg t) (hf : Valid cg f) (h : addJumpGe b cg k t f = .ok (loc, cg')) :
    Step args cg cg' ∧ loc < cg'.buffer.length ∧ (b.debugAssertions = true → Fits cg' →
      ∀ {load a v}, Delivers load cg a v (if k ≤ a then t else f) →
        Delivers load cg' a v (.location loc)) := by
  unfold addJumpGe at h
  split_ifs at h with hk
  · subst hk
    simp only [Except.ok.injEq] at h
    have hr := resolveTarget_spec hwf ht
    rw [h] at hr
    exact ⟨hr.step, hr.lt, fun _ hfit _ _ _ hd => hr.delivers hfit (by simpa using hd)⟩
  · exact addJump_spec hwf ht hf h

/-! ## Actions and chains -/

theorem registerAction_spec (action : Action) (hwf : WellFormed args cg) :
    Step args cg (cg.registerAction (actionToRet action)).2 ∧
      (cg.registerAction (actionToRet action)).2.actionTable[
        (cg.registerAction (actionToRet action)).1]? = some (actionToRet action) := by
  unfold registerAction
  split
  · rename_i id hid
    exact ⟨⟨.refl cg, hwf⟩, hwf.ids _ _ hid⟩
  · refine ⟨⟨⟨⟨[], rfl⟩, ⟨[actionToRet action], rfl⟩⟩, hwf.closed, hwf.emitted, ?_, ?_, ?_⟩, ?_⟩
    · simp only [List.mem_append, List.mem_singleton]
      rintro v (hv | rfl)
      · exact hwf.table v hv
      · exact ⟨action, rfl⟩
    · intro v id hid
      rw [lookup_cons_ite] at hid
      split_ifs at hid with he
      · subst he
        obtain rfl : cg.actionTable.length = id := by simpa using hid
        simp
      · have hv := hwf.ids v id hid
        obtain ⟨hlt, -⟩ := List.getElem?_eq_some_iff.1 hv
        simp only []
        rw [List.getElem?_append_left hlt, hv]
    · intro id loc hid
      obtain ⟨hlt, v, hv, hret⟩ := hwf.cache id loc hid
      obtain ⟨hlt', -⟩ := List.getElem?_eq_some_iff.1 hv
      exact ⟨hlt, v, by rw [List.getElem?_append_left hlt', hv], hret⟩
    · simp

theorem actionTarget_spec (action : Action) (hwf : WellFormed args cg) :
    Step args cg (cg.actionTarget action).2 ∧
      ∀ load a, Delivers load (cg.actionTarget action).2 a (actionToRet action)
        (cg.actionTarget action).1 :=
  ⟨(registerAction_spec action hwf).1, fun _ _ => (registerAction_spec action hwf).2⟩

theorem Delivers.valid {load : UInt32 → UInt32} {a v : UInt32} {t : Target}
    (h : Delivers load cg a v t) : Valid cg t := by
  cases t with
  | location loc => exact h.1
  | action id => exact (List.getElem?_eq_some_iff.1 h).1

/-- The two exits a filter is lowered in front of. -/
def exits : List SockFilter :=
  [⟨BPF_RET_K, 0, 0, TRUE_EXIT_PLACEHOLDER⟩, ⟨BPF_RET_K, 0, 0, FALSE_EXIT_PLACEHOLDER⟩]

theorem lowerExprWithPlaceholders_spec {e : Expr} {insns : List SockFilter}
    (h : lowerExprWithPlaceholders e = .ok insns) :
    ∃ new entry, insns = new ++ exits ∧ Lowered e 2 1 0 entry new := by
  simp only [lowerExprWithPlaceholders, bind_eq_ok, Except.ok.injEq] at h
  obtain ⟨⟨entry, _⟩, hgen, rfl⟩ := h
  obtain ⟨new, rfl, hlow⟩ := generateExpr_spec e (by simp [ExprBuf.emitStmt, ExprBuf.currentLoc])
    (by simp [ExprBuf.emitStmt, ExprBuf.currentLoc]) hgen
  exact ⟨new, entry, rfl, hlow⟩

/-- Code without a return is copied as it is. -/
theorem foldr_placeInsn (t f : ℕ) : ∀ {new : List SockFilter} (_ : ∀ i ∈ new, i.code ≠ Bpf.retK),
    new.foldr (placeInsn t f) cg = { cg with buffer := new ++ cg.buffer }
  | [], _ => rfl
  | i :: is, h => by
    have hi : ¬ i.code = BPF_RET_K := by simpa using h i (by simp)
    rw [List.foldr_cons, foldr_placeInsn t f fun j hj => h j (by simp [hj]), placeInsn,
      if_neg fun hret => hi hret.1, if_neg fun hret => hi hret.1]
    rfl

theorem placeInsn_exits (t f : ℕ) (new : List SockFilter) (h : ∀ i ∈ new, i.code ≠ Bpf.retK) :
    (new ++ exits).foldr (placeInsn t f) cg =
    { (cg.emitPlaceholderJump f).emitPlaceholderJump t with
      buffer := new ++ ((cg.emitPlaceholderJump f).emitPlaceholderJump t).buffer } := by
  rw [List.foldr_append, foldr_placeInsn t f h]
  rfl

theorem emitted_of_piece {n : ℕ} {new : List SockFilter} (h : Piece args n new) :
    ∀ i ∈ new, Emitted args i := by
  induction h with
  | nil => simp
  | load _ _ hidx high ih =>
    simp only [ExprBuf.emitArgLoad, ExprBuf.emitStmt, List.mem_cons, forall_eq_or_imp]
    exact ⟨.load BPF_LD_W_ABS_eq (.inr (.inr ⟨_, hidx, high, rfl⟩)), ih⟩
  | mask _ _ _ ih =>
    simp only [List.mem_cons, forall_eq_or_imp]
    exact ⟨.mask rfl, ih⟩
  | jump _ hcode _ _ _ _ ih =>
    simp only [List.mem_cons, forall_eq_or_imp]
    exact ⟨.cond hcode, ih⟩

/-- Expression code put in front of the program. -/
theorem append_step {n : ℕ} {new : List SockFilter} (hwf : WellFormed args cg)
    (hp : Piece args n new) (hn : n ≤ cg.buffer.length) :
    Step args cg { cg with buffer := new ++ cg.buffer } where
  ext := ⟨⟨new, rfl⟩, ⟨[], by simp⟩⟩
  wf :=
    { closed := hp.closed hn hwf.closed
      emitted := fun i hi => (List.mem_append.1 hi).elim (emitted_of_piece hp i) (hwf.emitted i)
      table := hwf.table
      ids := hwf.ids
      cache := fun id loc h => by
        obtain ⟨hlt, v, hv, hret⟩ := hwf.cache id loc h
        simp only [List.length_append, codeAt_append hlt]
        exact ⟨by omega, v, hv, hret⟩ }

/-- A lowered filter in front of the jumps to its exits falls into the one its truth picks. -/
theorem eval_lowered_append {e : Expr} {entry : ℕ} {new : List SockFilter}
    (h : Lowered e 2 1 0 entry new) (load : UInt32 → UInt32) (i j : SockFilter)
    (code : List SockFilter) (a : UInt32) :
    ∃ a', eval load (new ++ i :: j :: code) 0 a =
      eval load (if chainTruth (readArg load) e then i :: j :: code else j :: code) 0 a' := by
  unfold chainTruth
  cases hemits : e.emits
  · have hnil : new = [] := by simpa [hemits] using h.emits_eq
    exact ⟨a, by simp [hnil]⟩
  · obtain ⟨a', ha⟩ := h.runs hemits load (i :: j :: code) a
    refine ⟨a', ha.trans ?_⟩
    cases e.decidedTop (readArg load) <;> simp [codeAt]

theorem emitPlaceholderJump_spec {loc : ℕ} (hwf : WellFormed args cg)
    (hlt : loc < cg.buffer.length) : ∃ i, (cg.emitPlaceholderJump loc).buffer = i :: cg.buffer ∧
      Resolved args cg (.location loc) cg.buffer.length (cg.emitPlaceholderJump loc) :=
  ⟨_, rfl, addInstruction_ja hwf hlt⟩

theorem currentLoc_lt {n : ℕ} (h : n < cg.buffer.length) : cg.currentLoc < cg.buffer.length := by
  unfold currentLoc
  omega

/-- A lowered filter copied in front of the program. -/
theorem placeExpr_spec {e : Expr} {insns : List SockFilter} {t f : ℕ} (hwf : WellFormed args cg)
    (hargs : e.argIndices ⊆ args) (hlower : lowerExprWithPlaceholders e = .ok insns)
    (ht : t < cg.buffer.length) (hf : f < cg.buffer.length)
    (hcg' : cg' = insns.foldr (placeInsn t f) cg) :
    Step args cg cg' ∧ cg.buffer.length < cg'.buffer.length ∧ (Fits cg' → ∀ {load v},
      (∀ a, Delivers load cg a v (.location (if chainTruth (readArg load) e then t else f))) →
      ∀ a, Delivers load cg' a v (.location cg'.currentLoc)) := by
  obtain ⟨new, entry, rfl, hlow⟩ := lowerExprWithPlaceholders_spec hlower
  rw [placeInsn_exits _ _ _ hlow.piece.code_ne_ret] at hcg'
  obtain ⟨j, hj, h₁⟩ := emitPlaceholderJump_spec hwf hf
  generalize cg.emitPlaceholderJump f = cg₁ at hcg' hj h₁
  obtain ⟨i, hi, h₂⟩ := emitPlaceholderJump_spec h₁.step.wf
    (lt_of_lt_of_le ht h₁.step.ext.length_le)
  generalize cg₁.emitPlaceholderJump t = cg₂ at hcg' hi h₂
  have h₃ := append_step h₂.step.wf (hlow.piece.mono hargs) (by simp [hi, hj])
  rw [← hcg'] at h₃
  have hbuf : cg'.buffer = new ++ i :: j :: cg.buffer := by rw [hcg', hi, hj]
  have hlen : cg.buffer.length < cg'.buffer.length := by
    simp only [hbuf, List.length_append, List.length_cons]
    omega
  refine ⟨h₁.step.trans (h₂.step.trans h₃), hlen, fun hfit load v hd a => ⟨currentLoc_lt hlen, ?_⟩⟩
  have hfit₂ := h₃.ext.fits hfit
  have htop : codeAt cg'.buffer.length cg'.buffer cg'.currentLoc = cg'.buffer := by
    simp [codeAt, currentLoc]
  obtain ⟨a', ha⟩ := eval_lowered_append hlow load i j cg.buffer a
  rw [htop, hbuf, ha]
  have hd := hd a'
  split_ifs at hd ⊢
  · have := (h₂.delivers hfit₂ (h₁.step.ext.delivers hd)).2
    rwa [hi, List.length_cons, codeAt_top, hj] at this
  · have := (h₁.delivers (h₂.step.ext.fits hfit₂) hd).2
    rwa [hj, List.length_cons, codeAt_top] at this

theorem chainStep_spec {next t : Target} {m : ConditionalMapping} (hwf : WellFormed args cg)
    (hargs : m.expr.argIndices ⊆ args) (hv : Valid cg next)
    (h : chainStep (next, cg) m = .ok (t, cg')) :
    Step args cg cg' ∧ t = .location cg'.currentLoc ∧ cg.buffer.length < cg'.buffer.length ∧
      (Fits cg' → ∀ {load v}, (∀ a, Delivers load cg a v next) → ∀ a,
        Delivers load cg' a
          (if chainTruth (readArg load) m.expr then actionToRet m.action else v) t) := by
  obtain ⟨hs₁, hd₁⟩ := actionTarget_spec m.action hwf
  have h₂ := ensureJumpableTarget_spec hs₁.wf (hs₁.ext.valid hv)
  have h₃ := ensureJumpableTarget_spec h₂.step.wf
    (h₂.step.ext.valid (hd₁ (fun _ => 0) 0).valid)
  simp only [chainStep, bind_eq_ok, Except.ok.injEq, Prod.mk.injEq] at h
  obtain ⟨insns, hlower, rfl, hcg'⟩ := h
  obtain ⟨hs₄, hlen, hd₄⟩ := placeExpr_spec h₃.step.wf hargs hlower h₃.lt
    (lt_of_lt_of_le h₂.lt h₃.step.ext.length_le) hcg'.symm
  have hs₃ := hs₁.trans (h₂.step.trans h₃.step)
  rw [hcg']
  refine ⟨hs₃.trans hs₄, rfl, lt_of_le_of_lt hs₃.ext.length_le hlen, fun hfit load v hd =>
    hd₄ hfit fun a => ?_⟩
  have hfit₃ := hs₄.ext.fits hfit
  split_ifs
  · exact h₃.delivers hfit₃ (h₂.step.ext.delivers (hd₁ load a))
  · exact h₃.step.ext.delivers (h₂.delivers (h₃.step.ext.fits hfit₃) (hs₁.ext.delivers (hd a)))

/-- The chain is emitted from its last mapping on. -/
theorem foldrM_chainStep_spec {next : Target} (hwf : WellFormed args cg) (hv : Valid cg next) :
    ∀ {ms : List ConditionalMapping} {t : Target} {cg' : ReverseCodegen},
    (∀ m ∈ ms, m.expr.argIndices ⊆ args) →
    ms.foldrM (fun m state => chainStep state m) (next, cg) = .ok (t, cg') →
    Step args cg cg' ∧ Valid cg' t ∧
      (ms ≠ [] → t = .location cg'.currentLoc ∧ cg.buffer.length < cg'.buffer.length) ∧
      (Fits cg' → ∀ {load v}, (∀ a, Delivers load cg a v next) →
        ∀ a, Delivers load cg' a (chainVerdict load ms v) t)
  | [], t, cg', _, h => by
    obtain ⟨rfl, rfl⟩ : next = t ∧ cg = cg' := by simpa [pure, Except.pure] using h
    exact ⟨⟨.refl cg, hwf⟩, hv, by simp, fun _ _ _ hd => hd⟩
  | m :: ms, t, cg', hargs, h => by
    simp only [List.foldrM_cons, bind_eq_ok] at h
    obtain ⟨⟨t₁, cg₁⟩, hms, hm⟩ := h
    obtain ⟨hs₁, hv₁, -, hd₁⟩ :=
      foldrM_chainStep_spec hwf hv (fun m hm => hargs m (by simp [hm])) hms
    obtain ⟨hs₂, rfl, hlen, hd₂⟩ := chainStep_spec hs₁.wf (hargs m (by simp)) hv₁ hm
    refine ⟨hs₁.trans hs₂, currentLoc_lt hlen,
      fun _ => ⟨rfl, lt_of_le_of_lt hs₁.ext.length_le hlen⟩, fun hfit load v hd => ?_⟩
    rw [chainVerdict_cons]
    exact hd₂ hfit (hd₁ (hs₂.ext.fits hfit) hd)

theorem emitConditionalChain_spec {ms : List ConditionalMapping} {fallback : Action} {loc : ℕ}
    (hwf : WellFormed args cg) (hargs : ∀ m ∈ ms, m.expr.argIndices ⊆ args) (hne : ms ≠ [])
    (h : cg.emitConditionalChain ms fallback = .ok (loc, cg')) :
    Step args cg cg' ∧ (loc + 1 = cg'.buffer.length ∧ cg.buffer.length ≤ loc) ∧
      (Fits cg' → ∀ load a,
        Delivers load cg' a (chainVerdict load ms (actionToRet fallback)) (.location loc)) := by
  simp only [emitConditionalChain, List.foldlM_reverse, bind_eq_ok, Except.ok.injEq] at h
  obtain ⟨⟨t, cg₂⟩, hchain, hr⟩ := h
  obtain ⟨hs₁, hd₁⟩ := actionTarget_spec fallback hwf
  obtain ⟨hs₂, hv₂, hnew, hd₂⟩ :=
    foldrM_chainStep_spec hs₁.wf (hd₁ (fun _ => 0) 0).valid hargs hchain
  obtain ⟨rfl, hlen⟩ := hnew hne
  simp only [resolveTarget, Prod.mk.injEq] at hr
  obtain ⟨rfl, rfl⟩ := hr
  have := hs₁.ext.length_le
  refine ⟨hs₁.trans hs₂, ?_, fun hfit load a => hd₂ hfit (hd₁ load) a⟩
  unfold currentLoc
  omega

/-- A range's rule is a fresh location, or an action, registered and nothing more. -/
theorem generateAction_spec {range : SyscallRange} {t : Target} (hwf : WellFormed args cg)
    (hp : range.Proper args) (h : cg.generateAction range = .ok (t, cg')) :
    Step args cg cg' ∧ (∀ loc, t = .location loc →
        loc + 1 = cg'.buffer.length ∧ cg.buffer.length ≤ loc) ∧
      (∀ id, t = .action id → id < cg'.actionTable.length ∧ cg'.buffer = cg.buffer ∧
        cg'.actionLocCache = cg.actionLocCache) ∧
      (Fits cg' → ∀ load a, Delivers load cg' a (rangeVerdict load range) t) := by
  obtain ⟨hargs, hne⟩ := hp
  unfold generateAction at h
  unfold rangeVerdict
  unfold SyscallRange.mappings at hargs
  cases haction : range.action with
  | unconditional action =>
    simp only [haction, Except.ok.injEq] at h
    obtain ⟨hs, hd⟩ := actionTarget_spec action hwf
    rw [h] at hs hd
    refine ⟨hs, ?_, ?_, fun _ => hd⟩
    · rintro loc rfl
      simp [actionTarget] at h
    · rintro id rfl
      refine ⟨(hd (fun _ => 0) 0).valid, ?_⟩
      simp only [actionTarget, registerAction, Prod.mk.injEq] at h
      obtain ⟨-, rfl⟩ := h
      split <;> exact ⟨rfl, rfl⟩
  | conditional ms fallback =>
    simp only [haction, bind_eq_ok, Except.ok.injEq, Prod.mk.injEq] at h hargs
    obtain ⟨⟨loc, _⟩, hchain, rfl, rfl⟩ := h
    obtain ⟨hs, hnew, hd⟩ := emitConditionalChain_spec hwf hargs (hne ms fallback haction) hchain
    refine ⟨hs, ?_, by simp, hd⟩
    rintro _ ⟨⟩
    exact hnew

end Steps

end ReverseCodegen

end Pnut.Kafel
