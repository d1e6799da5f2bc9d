import Pnut.Child.Caps
import Pnut.Sandbox.Caps

/-!
# What the child is left with

A capability has the same bit in the words of the plan and in the kernel's set, and the complement
that leaves the bounding set is taken by the same numbers. `apply` is its calls one behind the
other, so it succeeds only when each of them has, and ends with the first that fails.
-/

namespace Pnut.Child.Caps

open Program Flags

/-! ## Words -/

theorem has_ofWords {w₀ w₁ : UInt32} {i : ℕ} :
    Has (ofWords w₀ w₁) i ↔
      if i < 32 then w₀.toNat.testBit i = true else w₁.toNat.testBit (i - 32) = true := by
  have hw₀ : ∀ j, 32 ≤ j → w₀.toNat.testBit j = false := fun j hj =>
    Nat.testBit_lt_two_pow (w₀.toNat_lt.trans_le (Nat.pow_le_pow_right two_pos hj))
  have hw₁ : ∀ j, 32 ≤ j → w₁.toNat.testBit j = false := fun j hj =>
    Nat.testBit_lt_two_pow (w₁.toNat_lt.trans_le (Nat.pow_le_pow_right two_pos hj))
  unfold ofWords
  rw [has_or]
  unfold Has
  rw [UInt64.toNat_shiftLeft, UInt32.toNat_toUInt64, UInt32.toNat_toUInt64,
    Nat.testBit_mod_two_pow, show (32 : UInt64).toNat % 64 = 32 from rfl, Nat.testBit_shiftLeft]
  split_ifs with hi
  · simp [hi]
  · rw [hw₀ i (not_lt.1 hi)]
    by_cases hi64 : i < 64
    · simp [hi64, not_lt.1 hi]
    · simp [hw₁ (i - 32) (by omega)]

theorem testBit_or_one {w n : UInt32} (hn : n.toNat < 32) {i : ℕ} :
    (w ||| 1 <<< n).toNat.testBit i = true ↔ w.toNat.testBit i = true ∨ n.toNat = i := by
  have hbit : (1 <<< n : UInt32).toNat = 2 ^ n.toNat := by
    rw [UInt32.toNat_shiftLeft, UInt32.toNat_one, Nat.mod_eq_of_lt hn, Nat.one_shiftLeft,
      Nat.mod_eq_of_lt (Nat.pow_lt_pow_right one_lt_two hn)]
  rw [UInt32.toNat_or, Nat.testBit_or, Bool.or_eq_true, hbit, Nat.testBit_two_pow,
    decide_eq_true_iff]

/-! ## Calls -/

/-- The calls of `apply` in their order. -/
def calls (spec : CapsSpec) : List CapOp :=
  (if spec.clearAmbient then [.prctl PR_CAP_AMBIENT PR_CAP_AMBIENT_CLEAR_ALL] else []) ++
    (spec.boundingDrop.map fun cap => .prctl PR_CAPBSET_DROP cap.toUInt64) ++
    [.capset ⟨LINUX_CAPABILITY_VERSION_3, 0⟩ (capData spec)]

theorem dropBounding_eq (caps : List UInt32) :
    dropBounding caps = callAll (caps.map fun cap => .prctl PR_CAPBSET_DROP cap.toUInt64) := by
  induction caps with
  | nil => rfl
  | cons cap caps ih =>
    unfold dropBounding
    rw [ih]
    rfl

theorem apply_eq (spec : CapsSpec) : apply spec = callAll (calls spec) := by
  unfold apply calls
  rw [List.append_assoc, callAll_append, callAll_append, ← dropBounding_eq, callAll_singleton]
  by_cases hclear : spec.clearAmbient = true
  · rw [if_pos hclear, if_pos hclear, callAll_singleton]
    rfl
  · rw [if_neg hclear, if_neg hclear]
    rfl

/-- The bounding set without the capabilities that are dropped. -/
def dropped (bounding : UInt64) (caps : List UInt32) : UInt64 :=
  caps.foldl (fun bounding cap => bounding &&& ~~~((1 : UInt64) <<< cap.toUInt64)) bounding

theorem has_dropped {caps : List UInt32} (hcaps : ∀ cap ∈ caps, cap.toNat < 64)
    (bounding : UInt64) {i : ℕ} :
    Has (dropped bounding caps) i ↔ Has bounding i ∧ ∀ cap ∈ caps, cap.toNat ≠ i := by
  induction caps generalizing bounding with
  | nil => simp [dropped]
  | cons cap caps ih =>
    obtain ⟨hcap, hcaps⟩ := List.forall_mem_cons.1 hcaps
    refine (ih hcaps _).trans ?_
    have hcap' : cap.toUInt64.toNat < 64 := by rwa [UInt32.toNat_toUInt64]
    rw [has_and_not, has_one_shiftLeft hcap', UInt32.toNat_toUInt64, List.forall_mem_cons,
      and_assoc]

/-- The drops and the assignment behind them. -/
theorem executes_drops {caps : List UInt32} {data : Vector UserCapData 2} {w w' : CapState} :
    Executes Answers (callAll ((caps.map fun cap => .prctl PR_CAPBSET_DROP cap.toUInt64) ++
        [.capset ⟨LINUX_CAPABILITY_VERSION_3, 0⟩ data])) w (.ok ()) w' ↔
      (∀ cap ∈ caps, cap.toNat < 64) ∧
        w' = ({ w with bounding := dropped w.bounding caps } : CapState).assign data := by
  induction caps generalizing w with
  | nil =>
    rw [List.map_nil, List.nil_append, executes_callAll_cons]
    constructor
    · rintro ⟨w₁, hassign, h⟩
      cases hassign
      exact ⟨nofun, executes_callAll_nil.1 h⟩
    · rintro ⟨-, rfl⟩
      exact ⟨_, .capset w data, executes_callAll_nil.2 rfl⟩
  | cons cap caps ih =>
    rw [List.map_cons, List.cons_append, executes_callAll_cons, List.forall_mem_cons, and_assoc]
    constructor
    · rintro ⟨w₁, hdrop, h⟩
      cases hdrop with
      | drop _ hlt =>
        obtain ⟨hcaps, rfl⟩ := ih.1 h
        rw [UInt64.lt_iff_toNat_lt, UInt32.toNat_toUInt64] at hlt
        exact ⟨hlt, hcaps, rfl⟩
    · rintro ⟨hcap, hcaps, rfl⟩
      have hlt : cap.toUInt64 < 64 := by
        rw [UInt64.lt_iff_toNat_lt, UInt32.toNat_toUInt64]
        exact hcap
      exact ⟨_, .drop w _ hlt, ih.2 ⟨hcaps, rfl⟩⟩

/-- What is left when every call has succeeded. -/
theorem executes_apply {spec : CapsSpec} (hclear : spec.clearAmbient = true) {w w' : CapState} :
    Executes Answers (apply spec) w (.ok ()) w' ↔
      (∀ cap ∈ spec.boundingDrop, cap.toNat < 64) ∧
        w' = ({ w with
          ambient := 0
          bounding := dropped w.bounding spec.boundingDrop } : CapState).assign (capData spec) := by
  rw [apply_eq, calls, if_pos hclear, List.append_assoc, List.singleton_append,
    executes_callAll_cons]
  constructor
  · rintro ⟨w₁, hclear, h⟩
    cases hclear
    exact executes_drops.1 h
  · intro h
    exact ⟨_, .ambient w, executes_drops.2 h⟩

end Pnut.Child.Caps

namespace Pnut.Sandbox.Capabilities

open Program Child.Caps Flags

section OrAssign

variable (words : Vector UInt32 2) (bit : UInt32)

theorem orAssign_zero_zero : (orAssign words 0 bit).get 0 = words.get 0 ||| bit :=
  Vector.getElem_set_self _

theorem orAssign_zero_one : (orAssign words 0 bit).get 1 = words.get 1 :=
  Vector.getElem_set_ne _ _ zero_ne_one

theorem orAssign_one_zero : (orAssign words 1 bit).get 0 = words.get 0 :=
  Vector.getElem_set_ne _ _ one_ne_zero

theorem orAssign_one_one : (orAssign words 1 bit).get 1 = words.get 1 ||| bit :=
  Vector.getElem_set_self _

end OrAssign

theorem has_addBit {words : Vector UInt32 2} {nr : UInt32} (hnr : nr.toNat < 64) {i : ℕ} :
    Has (ofWords ((addBit words nr).get 0) ((addBit words nr).get 1)) i ↔
      Has (ofWords (words.get 0) (words.get 1)) i ∨ nr.toNat = i := by
  have hmod : (nr % 32).toNat = nr.toNat % 32 := UInt32.toNat_mod ..
  have hlt : (nr % 32).toNat < 32 := hmod ▸ Nat.mod_lt _ (by omega)
  by_cases h : 31 < nr
  · have hnr' : 31 < nr.toNat := UInt32.lt_iff_toNat_lt.1 h
    have hadd : addBit words nr = orAssign words 1 (1 <<< (nr % 32)) :=
      congrArg (orAssign words · _) (if_pos h)
    rw [hadd, has_ofWords, has_ofWords, orAssign_one_zero, orAssign_one_one, testBit_or_one hlt]
    split_ifs with hi
    · exact (or_iff_left (by omega)).symm
    · exact or_congr_right (by omega)
  · have hnr' : ¬ 31 < nr.toNat := fun h' => h (UInt32.lt_iff_toNat_lt.2 h')
    have hadd : addBit words nr = orAssign words 0 (1 <<< (nr % 32)) :=
      congrArg (orAssign words · _) (if_neg h)
    rw [hadd, has_ofWords, has_ofWords, orAssign_zero_zero, orAssign_zero_one, testBit_or_one hlt]
    split_ifs with hi
    · exact or_congr_right (by omega)
    · exact (or_iff_left (by omega)).symm

theorem index_toUInt32 {C : Type} [Capability C] (c : C) :
    (Capability.index c).toUInt32.toNat = (Capability.index c).toNat := UInt8.toNat_toUInt32 _

theorem index_toNat_lt {C : Type} [Capability C] (c : C) : (Capability.index c).toNat < 64 :=
  UInt8.lt_iff_toNat_lt.1 (Capability.index_lt c)

/-- The words have the bits of the capabilities to keep. -/
theorem has_words {C : Type} [Capability C] (keep : List C) (i : ℕ) :
    Has (ofWords ((words keep).get 0) ((words keep).get 1)) i ↔
      ∃ c ∈ keep, (Capability.index c).toNat = i := by
  have hfold : ∀ (keep : List C) (start : Vector UInt32 2),
      let end' := keep.foldl (fun words cap => addBit words (Capability.index cap).toUInt32) start
      Has (ofWords (end'.get 0) (end'.get 1)) i ↔
        Has (ofWords (start.get 0) (start.get 1)) i ∨
          ∃ c ∈ keep, (Capability.index c).toNat = i := by
    intro keep
    induction keep with
    | nil => simp
    | cons c keep ih =>
      intro start
      have hc : (Capability.index c).toUInt32.toNat < 64 := index_toUInt32 c ▸ index_toNat_lt c
      refine (ih _).trans ?_
      rw [has_addBit hc, index_toUInt32, List.exists_mem_cons_iff, or_assoc]
  refine (hfold keep #v[0, 0]).trans (or_iff_right ?_)
  exact has_zero i

section Confined

variable {C : Type} [Capability C]

/-- The thread has the capabilities to keep and no others. -/
structure Confined (keep : List C) (w w' : CapState) : Prop where
  effective (i : ℕ) : Has w'.effective i ↔ ∃ c ∈ keep, (Capability.index c).toNat = i
  permitted (i : ℕ) : Has w'.permitted i ↔ ∃ c ∈ keep, (Capability.index c).toNat = i
  inheritable (i : ℕ) : Has w'.inheritable i ↔ ∃ c ∈ keep, (Capability.index c).toNat = i
  ambient : w'.ambient = 0
  /-- Every other capability that is known has left the bounding set. -/
  bounding_left (c : C) : c ∉ keep → ¬ Has w'.bounding (Capability.index c).toNat
  /-- No capability to keep has. -/
  bounding_kept (c : C) : c ∈ keep →
    (Has w'.bounding (Capability.index c).toNat ↔ Has w.bounding (Capability.index c).toNat)

theorem mem_boundingDrop (keep : List C) (i : ℕ) :
    (∃ cap ∈ (prepare ⟨keep⟩).boundingDrop, cap.toNat = i) ↔
      ∃ c : C, c ∉ keep ∧ (Capability.index c).toNat = i := by
  have hkeep : ∀ c : C, Capability.index c ∈ keep.map Capability.index ↔ c ∈ keep := fun c =>
    ⟨fun h => by
      obtain ⟨c', hc', heq⟩ := List.mem_map.1 h
      exact Capability.index_injective heq ▸ hc', List.mem_map_of_mem⟩
  unfold prepare
  simp only [List.mem_map, List.mem_filter, Capability.mem_all, true_and, Bool.not_eq_true',
    List.contains_eq_mem, decide_eq_false_iff_not, exists_exists_and_eq_and, index_toUInt32]
  simp only [← List.mem_map, hkeep]

theorem boundingDrop_lt (keep : List C) :
    ∀ cap ∈ (prepare ⟨keep⟩).boundingDrop, cap.toNat < 64 := by
  intro cap hcap
  obtain ⟨c, -, heq⟩ := (mem_boundingDrop keep _).1 ⟨cap, hcap, rfl⟩
  exact heq ▸ index_toNat_lt c

/-- When `apply` succeeds on a prepared plan, the thread is confined to the capabilities to keep;
the first call that fails is its last, and its failure is returned. -/
theorem apply_confines (keep : List C) :
    (∀ w w', Executes Answers (apply (prepare ⟨keep⟩)) w (.ok ()) w' → Confined keep w w') ∧
      ∀ t r, Runs (fun _ => False) (apply (prepare ⟨keep⟩)) t (.returned r) →
        ∀ pre op err suf, t = pre ++ ⟨op, .error err⟩ :: suf → suf = [] ∧ r = .error err := by
  constructor
  · intro w w' h
    obtain ⟨hdrop, rfl⟩ := (executes_apply rfl).1 h
    refine ⟨has_words keep, has_words keep, has_words keep, ?_, ?_, ?_⟩
    · show 0 &&& _ &&& _ = 0
      simp
    · intro c hc h
      obtain ⟨cap, hcap, heq⟩ := (mem_boundingDrop keep _).2 ⟨c, hc, rfl⟩
      exact ((has_dropped hdrop _).1 h).2 cap hcap heq
    · intro c hc
      refine (has_dropped hdrop _).trans (and_iff_left fun cap hcap heq => ?_)
      obtain ⟨c', hc', heq'⟩ := (mem_boundingDrop keep _).1 ⟨cap, hcap, heq⟩
      exact hc' (Capability.index_injective (UInt8.toNat_inj.1 heq') ▸ hc)
  · rintro t r h pre op err suf rfl
    rw [apply_eq] at h
    exact callAll_stops h

end Confined

/-- The 41 capabilities of Linux since 5.9. -/
instance linuxCapability : Capability (Fin 41) where
  index c := UInt8.ofNat c
  all := List.finRange 41
  mem_all := List.mem_finRange
  nodup_all := List.nodup_finRange 41
  index_lt c := UInt8.lt_iff_toNat_lt.2 (by
    rw [UInt8.toNat_ofNat', Nat.mod_eq_of_lt (by omega)]
    exact c.isLt.trans (by decide))
  index_injective c c' h := by
    have h' := congrArg UInt8.toNat h
    rw [UInt8.toNat_ofNat', UInt8.toNat_ofNat', Nat.mod_eq_of_lt (by omega),
      Nat.mod_eq_of_lt (by omega)] at h'
    exact Fin.ext h'

/-- `CAP_NET_BIND_SERVICE` twice and `CAP_BPF`, from a thread with every capability. -/
theorem apply_confines_server : ∃ w',
    Confined ([10, 39, 10] : List (Fin 41))
      ⟨0x1FFFFFFFFFF, 0x1FFFFFFFFFF, 0, 0x1FFFFFFFFFF, 0⟩ w' :=
  ⟨_, (apply_confines _).1 _ _ ((executes_apply rfl).2 ⟨boundingDrop_lt _, rfl⟩)⟩

end Pnut.Sandbox.Capabilities
