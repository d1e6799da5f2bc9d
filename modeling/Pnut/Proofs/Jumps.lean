import Pnut.Proofs.Builds

/-!
# Encoded jumps

Resolving the true target of a jump may put an instruction in front of the buffer after the false
target was found near enough. A jump is encoded exactly unless this moves the false target out of
reach: it was at the largest distance, and the true target needed an instruction.
-/

namespace Pnut.Kafel.ReverseCodegen

open Bpf (SockFilter)
open Libc

/-! ## Reachable states -/

/-- The states that the methods of the generator lead to before `generate` takes the buffer away,
their locations within an `i32`. -/
inductive Reachable : ReverseCodegen → Prop where
  | new : Reachable .new
  | registerAction {cg : ReverseCodegen} (h : Reachable cg) (retVal : UInt32) :
      Reachable (cg.registerAction retVal).2
  | addInstruction {cg : ReverseCodegen} (h : Reachable cg) (insn : SockFilter)
      (hfit : Fits (cg.addInstruction insn).2) : Reachable (cg.addInstruction insn).2
  | resolveTarget {cg : ReverseCodegen} (h : Reachable cg) {t : Target} (hv : Valid cg t)
      (hfit : Fits (cg.resolveTarget t).2) : Reachable (cg.resolveTarget t).2
  | ensureJumpableTarget {cg : ReverseCodegen} (h : Reachable cg) {t : Target} (hv : Valid cg t)
      (hfit : Fits (cg.ensureJumpableTarget t).2) : Reachable (cg.ensureJumpableTarget t).2
  | addJump {b : Build} {cg cg' : ReverseCodegen} (h : Reachable cg) {bpfType : UInt16}
      {k : UInt32} {t f : Target} {loc : ℕ} (ht : Valid cg t) (hf : Valid cg f)
      (hjump : addJump b cg bpfType k t f = .ok (loc, cg')) (hfit : Fits cg') : Reachable cg'

/-- The instruction at a location. -/
def insnAt (cg : ReverseCodegen) (loc : ℕ) : Option SockFilter := cg.buffer.reverse[loc]?

/-- The location is the target, or a return of its action. -/
def Is (cg : ReverseCodegen) (loc : ℕ) : Target → Prop
  | .location loc' => loc = loc'
  | .action id => ∃ v, cg.actionTable[id]? = some v ∧ cg.insnAt loc = some ⟨BPF_RET_K, 0, 0, v⟩

/-- The location is the target, or a long jump to it. -/
def Leads (cg : ReverseCodegen) (loc : ℕ) (t : Target) : Prop :=
  Is cg loc t ∨ ∃ k loc', cg.insnAt loc = some ⟨BPF_JMP_JA, 0, 0, k⟩ ∧
    loc = loc' + 1 + k.toNat ∧ Is cg loc' t

/-- In every build the jump is emitted, and its displacements lead to the targets. -/
def JumpExact (cg : ReverseCodegen) (bpfType : UInt16) (k : UInt32) (t f : Target) : Prop :=
  ∀ b : Build, ∃ loc cg' jt jf lt lf, addJump b cg bpfType k t f = .ok (loc, cg') ∧
    cg'.insnAt loc = some ⟨BPF_JMP ||| bpfType, jt, jf, k⟩ ∧
    loc = lt + 1 + jt.toNat ∧ Leads cg' lt t ∧ loc = lf + 1 + jf.toNat ∧ Leads cg' lf f

/-- The place a jump to the target would go to is at the largest distance. -/
def AtLimit (cg : ReverseCodegen) : Target → Prop
  | .location loc => cg.locToJump loc = MAX_JUMP
  | .action id => ∃ loc, cg.actionLocCache.lookup id = some loc ∧ cg.locToJump loc = MAX_JUMP

/-- The target is too far, or its action has no return near enough. -/
def OutOfReach (cg : ReverseCodegen) : Target → Prop
  | .location loc => MAX_JUMP < cg.locToJump loc
  | .action id => ∀ loc, cg.actionLocCache.lookup id = some loc → MAX_JUMP < cg.locToJump loc

/-! ## Return sites -/

section Sites

variable {cg cg' : ReverseCodegen} {t : Target} {loc : ℕ}

/-- A cached location is a return of its action. -/
def Sites (cg : ReverseCodegen) : Prop :=
  ∀ id loc, cg.actionLocCache.lookup id = some loc →
    loc < cg.buffer.length ∧ Is cg loc (.action id)

theorem Extends.insnAt_eq (h : Extends cg cg') (hlt : loc < cg.buffer.length) :
    cg'.insnAt loc = cg.insnAt loc := by
  obtain ⟨new, hb⟩ := h.buffer
  rw [insnAt, hb, List.reverse_append, List.getElem?_append_left (by simpa using hlt)]
  rfl

theorem insnAt_addInstruction (cg : ReverseCodegen) (i : SockFilter) :
    (cg.addInstruction i).2.insnAt cg.buffer.length = some i := by
  simp [insnAt, addInstruction]

theorem Extends.is (h : Extends cg cg') (hlt : loc < cg.buffer.length) (ht : Is cg loc t) :
    Is cg' loc t := by
  cases t with
  | location loc' => exact ht
  | action id =>
    obtain ⟨v, hv, hi⟩ := ht
    exact ⟨v, h.table_get hv, by rw [h.insnAt_eq hlt, hi]⟩

theorem Extends.leads (h : Extends cg cg') (hlt : loc < cg.buffer.length) (ht : Leads cg loc t) :
    Leads cg' loc t := by
  rcases ht with ht | ⟨k, loc', hi, hloc, ht⟩
  · exact .inl (h.is hlt ht)
  · exact .inr ⟨k, loc', by rw [h.insnAt_eq hlt, hi], hloc, h.is (by omega) ht⟩

/-- A step that caches nothing. -/
theorem Sites.mono (hs : Sites cg) (h : Extends cg cg')
    (hcache : cg'.actionLocCache = cg.actionLocCache) : Sites cg' := by
  intro id loc hloc
  rw [hcache] at hloc
  obtain ⟨hlt, his⟩ := hs id loc hloc
  exact ⟨hlt.trans_le h.length_le, h.is hlt his⟩

theorem extends_addInstruction (cg : ReverseCodegen) (i : SockFilter) :
    Extends cg (cg.addInstruction i).2 := ⟨⟨[i], rfl⟩, ⟨[], by simp [addInstruction]⟩⟩

/-- A fresh return site. -/
theorem emitAction_sites {id : ℕ} (hs : Sites cg) (hv : Valid cg (.action id)) :
    Extends cg (cg.emitAction id).2 ∧ Sites (cg.emitAction id).2 ∧
      (cg.emitAction id).1 = cg.buffer.length ∧
      (cg.emitAction id).2.buffer.length = cg.buffer.length + 1 ∧
      Is (cg.emitAction id).2 cg.buffer.length (.action id) := by
  obtain ⟨v, hid⟩ : ∃ v, cg.actionTable[id]? = some v := ⟨_, List.getElem?_eq_getElem hv⟩
  have hget : cg.actionTable.getD id 0 = v := by simp [List.getD, hid]
  have hext : Extends cg (cg.emitAction id).2 := ⟨⟨[_], rfl⟩, ⟨[], by simp [emitAction, emitStmt,
    addInstruction]⟩⟩
  have his : Is (cg.emitAction id).2 cg.buffer.length (.action id) :=
    ⟨v, hid, by simp [emitAction, emitStmt, insnAt, addInstruction, hid]⟩
  refine ⟨hext, ?_, by simp [emitAction, emitStmt],
    by simp [emitAction, emitStmt, addInstruction], his⟩
  intro id' loc hloc
  have hcache :
      (cg.emitAction id).2.actionLocCache = (id, cg.buffer.length) :: cg.actionLocCache := by
    simp [emitAction, emitStmt, addInstruction, currentLoc]
  rw [hcache, lookup_cons_ite] at hloc
  split_ifs at hloc with he
  · obtain ⟨rfl, rfl⟩ : id' = id ∧ cg.buffer.length = loc := ⟨he, by simpa using hloc⟩
    exact ⟨by simp [emitAction, emitStmt, addInstruction], his⟩
  · obtain ⟨hlt, hold⟩ := hs id' loc hloc
    exact ⟨hlt.trans_le hext.length_le, hext.is hlt hold⟩

end Sites

/-! ## Making a target jumpable -/

section Ensure

variable {cg cg' : ReverseCodegen} {t : Target} {loc : ℕ}

/-- What making a target jumpable does: nothing when the target is within reach, else one
instruction is put in front of the buffer. -/
structure Ensured (cg : ReverseCodegen) (t : Target) (loc : ℕ) (cg' : ReverseCodegen) : Prop where
  ext : Extends cg cg'
  sites : Sites cg'
  lt : loc < cg'.buffer.length
  leads : cg.buffer.length ≤ 2 ^ 32 → Leads cg' loc t
  cases : (¬ OutOfReach cg t ∧ cg' = cg ∧ cg.locToJump loc ≤ MAX_JUMP ∧
      (cg.locToJump loc = MAX_JUMP ↔ AtLimit cg t)) ∨
    (OutOfReach cg t ∧ loc = cg.buffer.length ∧ cg'.buffer.length = cg.buffer.length + 1)

theorem ensureJumpableTarget_eq {r : ℕ × ReverseCodegen} (h : cg.resolveTarget t = r) :
    cg.ensureJumpableTarget t = if MAX_JUMP < r.2.locToJump r.1 then
      r.2.addInstruction ⟨BPF_JMP_JA, 0, 0, UInt32.ofNat (r.2.locToJump r.1)⟩ else r := by
  rw [ensureJumpableTarget, h]

theorem ensured_location (hs : Sites cg) (hv : loc < cg.buffer.length) :
    Ensured cg (.location loc) (cg.ensureJumpableTarget (.location loc)).1
      (cg.ensureJumpableTarget (.location loc)).2 := by
  rw [ensureJumpableTarget_eq (by rfl : cg.resolveTarget (.location loc) = (loc, cg))]
  split_ifs with hfar
  · rw [addInstruction_fst]
    refine ⟨extends_addInstruction .., hs.mono (extends_addInstruction ..) rfl, by simp, ?_,
      .inr ⟨hfar, rfl, by simp⟩⟩
    intro hfit
    refine .inr ⟨_, loc, insnAt_addInstruction .., ?_, rfl⟩
    have hdist : cg.locToJump loc = cg.buffer.length - 1 - loc := rfl
    simp only [UInt32.toNat_ofNat', Nat.mod_eq_of_lt (by omega : cg.locToJump loc < 2 ^ 32)]
    omega
  · exact ⟨.refl cg, hs, hv, fun _ => .inl rfl, .inl ⟨hfar, rfl, not_lt.1 hfar, Iff.rfl⟩⟩

theorem ensured_action {id : ℕ} (hs : Sites cg) (hv : Valid cg (.action id)) :
    Ensured cg (.action id) (cg.ensureJumpableTarget (.action id)).1
      (cg.ensureJumpableTarget (.action id)).2 := by
  -- a fresh return site is the newest instruction, and so near
  have fresh (hout : OutOfReach cg (.action id)) :
      cg.resolveAction id = cg.emitAction id → Ensured cg (.action id)
        (cg.ensureJumpableTarget (.action id)).1 (cg.ensureJumpableTarget (.action id)).2 := by
    intro hres
    obtain ⟨hext, hsites, hloc, hlen, his⟩ := emitAction_sites hs hv
    have hnear : ¬ MAX_JUMP < (cg.emitAction id).2.locToJump (cg.emitAction id).1 := by
      simp [locToJump, currentLoc, hloc, hlen]
    have hres : cg.resolveTarget (.action id) = cg.emitAction id := hres
    rw [ensureJumpableTarget_eq hres, if_neg hnear]
    exact ⟨hext, hsites, by omega, fun _ => .inl (hloc ▸ his), .inr ⟨hout, hloc, hlen⟩⟩
  cases hcache : cg.actionLocCache.lookup id with
  | none =>
    refine fresh (fun loc hloc => by simp [hcache] at hloc) ?_
    simp [resolveAction, hcache]
  | some loc =>
    by_cases hfar : MAX_JUMP < cg.locToJump loc
    · refine fresh (fun loc' hloc' => ?_) ?_
      · obtain rfl : loc = loc' := by simpa [hcache] using hloc'
        exact hfar
      · rw [resolveAction, hcache]
        exact if_neg (not_le.2 hfar)
    · have hres : cg.resolveTarget (.action id) = (loc, cg) := by
        rw [resolveTarget, resolveAction, hcache]
        exact if_pos (not_lt.1 hfar)
      obtain ⟨hlt, his⟩ := hs id loc hcache
      rw [ensureJumpableTarget_eq hres, if_neg hfar]
      refine ⟨.refl cg, hs, hlt, fun _ => .inl his, .inl ⟨fun hout => hfar (hout loc hcache), rfl,
        not_lt.1 hfar, ?_⟩⟩
      simp [AtLimit, hcache]

theorem ensured (hs : Sites cg) (hv : Valid cg t) :
    Ensured cg t (cg.ensureJumpableTarget t).1 (cg.ensureJumpableTarget t).2 := by
  cases t with
  | location loc => exact ensured_location hs hv
  | action id => exact ensured_action hs hv

end Ensure

/-! ## The jump -/

section AddJump

variable {cg : ReverseCodegen} {t f : Target}

/-- The displacements of a jump before it is emitted: the last call finds the true target near. -/
theorem addJump_eq (b : Build) (hs : Sites cg) (ht : Valid cg t) (hf : Valid cg f) (hne : t ≠ f)
    (bpfType : UInt16) (k : UInt32) :
    let (floc, cg₁) := cg.ensureJumpableTarget f
    let (tloc, cg₂) := cg₁.ensureJumpableTarget t
    addJump b cg bpfType k t f =
      if b.debugAssertions && decide (MAX_JUMP < cg₂.locToJump floc) then
        panicWith s!"jf distance {cg₂.locToJump floc} exceeds max after trampolining"
      else .ok (cg₂.addInstruction ⟨BPF_JMP ||| bpfType, UInt8.ofNat (cg₂.locToJump tloc),
        UInt8.ofNat (cg₂.locToJump floc), k⟩) := by
  have h₁ := ensured hs hf
  have h₂ := ensured h₁.sites (h₁.ext.valid ht)
  have hnear := ensureJumpableTarget_near (cg.ensureJumpableTarget f).2 t
  simp only
  generalize hfloc : cg.ensureJumpableTarget f = r₁ at *
  generalize htloc : r₁.2.ensureJumpableTarget t = r₂ at *
  have h₃ : r₂.2.ensureJumpableTarget (.location r₂.1) = r₂ := by
    rw [ensureJumpableTarget_eq (by rfl : r₂.2.resolveTarget (.location r₂.1) = r₂),
      if_neg (not_lt.2 hnear)]
  rw [addJump, if_neg hne]
  simp only [hfloc, htloc, h₃]
  rw [if_neg (by simpa using fun _ => hnear)]

theorem not_atLimit (h : OutOfReach cg t) : ¬ AtLimit cg t := by
  cases t with
  | location loc => exact fun hlimit => h.ne' hlimit
  | action id =>
    rintro ⟨loc, hloc, hlimit⟩
    exact (h loc hloc).ne' hlimit

/-- The false displacement is too long in one case only. -/
theorem drift_iff {cg₁ cg₂ : ReverseCodegen} {floc tloc : ℕ} (h₁ : Ensured cg f floc cg₁)
    (h₂ : Ensured cg₁ t tloc cg₂) :
    MAX_JUMP < cg₂.locToJump floc ↔ AtLimit cg f ∧ OutOfReach cg t := by
  rcases h₁.cases with ⟨-, rfl, hle, hlimit⟩ | ⟨hout, rfl, hlen⟩
  · rcases h₂.cases with ⟨hreach, rfl, -⟩ | ⟨hout, -, hlen⟩
    · exact iff_of_false (not_lt.2 hle) fun h => hreach h.2
    · rw [← hlimit, and_iff_left hout]
      have hlt := h₁.lt
      unfold locToJump currentLoc at hle ⊢
      omega
  · refine iff_of_false (not_lt.2 ?_) fun h => not_atLimit hout h.1
    have hlen₂ : cg₂.buffer.length ≤ cg₁.buffer.length + 1 := by
      rcases h₂.cases with ⟨-, rfl, -⟩ | ⟨-, -, hlen₂⟩ <;> omega
    unfold locToJump currentLoc MAX_JUMP
    omega

/-- A jump is encoded exactly unless the false target is at the limit and the true target needs an
instruction. -/
theorem jumpExact_iff_of_sites (hs : Sites cg) (hfit : Fits cg) (ht : Valid cg t) (hf : Valid cg f)
    (hne : t ≠ f) (bpfType : UInt16) (k : UInt32) :
    JumpExact cg bpfType k t f ↔ ¬ (AtLimit cg f ∧ OutOfReach cg t) := by
  have hjump b := addJump_eq b hs ht hf hne bpfType k
  have h₁ := ensured hs hf
  have h₂ := ensured h₁.sites (h₁.ext.valid ht)
  have hnear := ensureJumpableTarget_near (cg.ensureJumpableTarget f).2 t
  generalize cg.ensureJumpableTarget f = r₁ at *
  obtain ⟨floc, cg₁⟩ := r₁
  simp only at *
  generalize cg₁.ensureJumpableTarget t = r₂ at *
  obtain ⟨tloc, cg₂⟩ := r₂
  simp only at *
  have hdrift := drift_iff h₁ h₂
  have hfit₁ : cg₁.buffer.length ≤ 2 ^ 32 := by
    unfold Fits at hfit
    rcases h₁.cases with ⟨-, rfl, -⟩ | ⟨-, -, hlen⟩ <;> omega
  rw [← hdrift]
  constructor
  · intro hexact hfar
    obtain ⟨loc, cg', _, _, _, _, hok, -⟩ := hexact .debug
    rw [hjump] at hok
    simp [Build.debug, hfar] at hok
  · intro hclose b
    have hjf : cg₂.locToJump floc ≤ MAX_JUMP := not_lt.1 hclose
    have fits8 {x : ℕ} (hx : x ≤ MAX_JUMP) : (UInt8.ofNat x).toNat = x := by
      rw [UInt8.toNat_ofNat']
      unfold MAX_JUMP at hx
      omega
    have hfloc : floc < cg₂.buffer.length := h₁.lt.trans_le h₂.ext.length_le
    let i : SockFilter := ⟨BPF_JMP ||| bpfType, UInt8.ofNat (cg₂.locToJump tloc),
      UInt8.ofNat (cg₂.locToJump floc), k⟩
    have hext := extends_addInstruction cg₂ i
    have htlt := h₂.lt
    refine ⟨cg₂.buffer.length, (cg₂.addInstruction i).2, i.jt, i.jf, tloc, floc, ?_,
      insnAt_addInstruction cg₂ i, ?_, hext.leads htlt (h₂.leads hfit₁), ?_,
      hext.leads hfloc (h₂.ext.leads h₁.lt (h₁.leads (hfit.trans (by decide))))⟩
    · rw [hjump, if_neg (by simp [hjf])]
      exact congrArg _ (Prod.ext (addInstruction_fst cg₂ i) rfl)
    · rw [fits8 hnear, locToJump, currentLoc]
      omega
    · rw [fits8 hjf, locToJump, currentLoc]
      omega

/-- The checked build panics at a jump whose false displacement is too long. -/
theorem addJump_panics_iff (hs : Sites cg) (ht : Valid cg t) (hf : Valid cg f) (hne : t ≠ f)
    (bpfType : UInt16) (k : UInt32) :
    Panics (addJump .debug cg bpfType k t f) ↔ AtLimit cg f ∧ OutOfReach cg t := by
  have hjump := addJump_eq .debug hs ht hf hne bpfType k
  have h₁ := ensured hs hf
  have hdrift := drift_iff h₁ (ensured h₁.sites (h₁.ext.valid ht))
  simp only at hjump
  rw [hjump, ← hdrift]
  constructor
  · intro hp
    by_contra hclose
    rw [if_neg (by simp [hclose])] at hp
    exact not_panics_ok hp
  · intro hfar
    rw [if_pos (by simp [Build.debug, hfar])]
    exact ⟨_, rfl⟩

end AddJump

/-! ## Every reachable state -/

section Reachable

variable {cg cg' : ReverseCodegen}

theorem registerAction_sites (hs : Sites cg) (retVal : UInt32) :
    Sites (cg.registerAction retVal).2 := by
  unfold registerAction
  split
  · exact hs
  · exact hs.mono ⟨⟨[], rfl⟩, ⟨[retVal], rfl⟩⟩ rfl

theorem resolveTarget_sites {t : Target} (hs : Sites cg) (hv : Valid cg t) :
    Sites (cg.resolveTarget t).2 := by
  cases t with
  | location loc => exact hs
  | action id =>
    have hnew := (emitAction_sites hs hv).2.1
    simp only [resolveTarget, resolveAction]
    split
    · split_ifs
      · exact hs
      · exact hnew
    · exact hnew

theorem addJump_sites {b : Build} {bpfType : UInt16} {k : UInt32} {t f : Target} {loc : ℕ}
    (hs : Sites cg) (ht : Valid cg t) (hf : Valid cg f)
    (h : addJump b cg bpfType k t f = .ok (loc, cg')) : Sites cg' := by
  by_cases hne : t = f
  · rw [addJump, if_pos hne] at h
    have := resolveTarget_sites hs ht
    rwa [Except.ok.inj h] at this
  · have hjump := addJump_eq b hs ht hf hne bpfType k
    have h₁ := ensured hs hf
    have h₂ := ensured h₁.sites (h₁.ext.valid ht)
    simp only [h] at hjump
    split_ifs at hjump
    · exact absurd hjump.symm panicWith_ne_ok
    · simp only [Except.ok.injEq, Prod.ext_iff] at hjump
      rw [hjump.2]
      exact h₂.sites.mono (extends_addInstruction ..) rfl

/-- A run keeps its return sites and its size. -/
theorem Reachable.sites (h : Reachable cg) : Sites cg ∧ Fits cg := by
  induction h with
  | new => exact ⟨by simp [Sites, ReverseCodegen.new], by simp [Fits, ReverseCodegen.new]⟩
  | @registerAction cg _ retVal ih =>
    refine ⟨registerAction_sites ih.1 retVal, ?_⟩
    unfold ReverseCodegen.registerAction
    split <;> exact ih.2
  | addInstruction _ insn hfit ih => exact ⟨ih.1.mono (extends_addInstruction ..) rfl, hfit⟩
  | resolveTarget _ hv hfit ih => exact ⟨resolveTarget_sites ih.1 hv, hfit⟩
  | ensureJumpableTarget _ hv hfit ih => exact ⟨(ensured ih.1 hv).sites, hfit⟩
  | addJump _ ht hf hjump hfit ih => exact ⟨addJump_sites ih.1 ht hf hjump, hfit⟩

end Reachable

/-- In every reachable state a jump between two targets is encoded exactly, in every build, unless
the false target is at the limit and the true target needs an instruction. -/
theorem jumpExact_iff {cg : ReverseCodegen} {t f : Target} (h : Reachable cg) (ht : Valid cg t)
    (hf : Valid cg f) (hne : t ≠ f) (bpfType : UInt16) (k : UInt32) :
    JumpExact cg bpfType k t f ↔ ¬ (AtLimit cg f ∧ OutOfReach cg t) :=
  jumpExact_iff_of_sites h.sites.1 h.sites.2 ht hf hne bpfType k

/-- One statement after the other. -/
theorem Reachable.emitStmt_iterate {cg : ReverseCodegen} (h : Reachable cg) (code : UInt16)
    (k : UInt32) : ∀ {n : ℕ}, cg.buffer.length + n ≤ 2 ^ 31 →
    Reachable ((fun cg => (cg.emitStmt code k).2)^[n] cg) ∧
      ((fun cg => (cg.emitStmt code k).2)^[n] cg).buffer.length = cg.buffer.length + n
  | 0, _ => ⟨h, rfl⟩
  | n + 1, hn => by
    obtain ⟨hreach, hlen⟩ := h.emitStmt_iterate code k (by omega : cg.buffer.length + n ≤ 2 ^ 31)
    rw [Function.iterate_succ_apply']
    have hlen' : (((fun cg => (cg.emitStmt code k).2)^[n] cg).emitStmt code k).2.buffer.length =
        cg.buffer.length + (n + 1) := by
      rw [emitStmt, addInstruction_buffer, List.length_cons, hlen, Nat.add_assoc]
    exact ⟨hreach.addInstruction _ (hlen'.trans_le hn), hlen'⟩

/-- A return of the first action, with as many instructions in front as a jump passes over, and a
second action that has no return yet. -/
def limitState : ReverseCodegen :=
  (fun cg => (cg.emitStmt BPF_LD_W_ABS OFFSET_NR).2)^[255]
    (((new.registerAction SECCOMP_RET_ALLOW).2.registerAction SECCOMP_RET_KILL).2.resolveTarget
      (.action 0)).2

theorem limitState_reachable : Reachable limitState := by
  have hstart : Reachable (((new.registerAction SECCOMP_RET_ALLOW).2.registerAction
      SECCOMP_RET_KILL).2.resolveTarget (.action 0)).2 :=
    ((Reachable.new.registerAction _).registerAction _).resolveTarget
      (by unfold Valid; decide) (by unfold Fits; decide)
  exact (hstart.emitStmt_iterate _ _ (by decide)).1

/-- Filters on one syscall, and two rules whose comparison comes right after their chain: the chain
returns the default action first and ends as far away as a jump reaches. -/
def driftPolicy : Policy :=
  ⟨(List.range 63).map (fun i => ⟨1, .errno (UInt32.ofNat (i % 2)),
      some (.compare (.arg 0) .eq (.constant (UInt64.ofNat i)))⟩) ++
    [⟨447, .log, none⟩, ⟨448, .allow, none⟩], .killProcess⟩

/-- Neither target was out of reach of a jump, but they are not both within reach of one. -/
theorem limitState_not_jumpExact :
    Reachable limitState ∧ Valid limitState (.action 1) ∧ Valid limitState (.action 0) ∧
      ¬ JumpExact limitState BPF_JGE 1 (.action 1) (.action 0) ∧
      Panics (driftPolicy.codegen .debug) := by
  refine ⟨limitState_reachable, by unfold Valid; decide +kernel, by unfold Valid; decide +kernel,
    fun hexact => ?_, by decide +kernel⟩
  obtain ⟨loc, cg', jt, jf, lt, lf, hok, -⟩ := hexact .debug
  have hpanics : Panics (addJump .debug limitState BPF_JGE 1 (.action 1) (.action 0)) := by
    decide +kernel
  exact hpanics.not_ok ⟨_, hok⟩

theorem limitState_jumpExact_iff : JumpExact limitState BPF_JGE 1 (.action 0) (.action 1) ↔
    ¬ (AtLimit limitState (.action 1) ∧ OutOfReach limitState (.action 0)) :=
  jumpExact_iff limitState_reachable (by unfold Valid; decide +kernel)
    (by unfold Valid; decide +kernel) (by decide) BPF_JGE 1

end Pnut.Kafel.ReverseCodegen
