import Pnut.Proofs.Drifts

/-!
# What a program decides

A program returns the action that its policy selects when every filter is read the way its code
reads it. A number above all ranges is decided as the largest number of the ranges is.
-/

namespace Pnut.Kafel

open Bpf (SockFilter SeccompData)

/-! ## The rule of a range -/

section Rule

variable {policy : Policy} {load : UInt32 → UInt32}

variable (load) in
theorem chainVerdict_mapping (entries : List PolicyEntry) (v : UInt32) :
    chainVerdict load (entries.filterMap PolicyEntry.mapping?) v =
      match entries.find? fun e => e.filter.any (chainTruth (readArg load)) with
      | some e => actionToRet e.action
      | none => v := by
  have hany (e : PolicyEntry) : e.mapping?.any (fun m => chainTruth (readArg load) m.expr) =
      e.filter.any (chainTruth (readArg load)) := by
    unfold PolicyEntry.mapping?
    cases e.filter <;> rfl
  unfold chainVerdict
  rw [List.find?_filterMap]
  simp only [hany]
  cases hfind : entries.find? fun e => e.filter.any (chainTruth (readArg load)) with
  | none => rfl
  | some e =>
    have := List.find?_some hfind
    unfold PolicyEntry.mapping?
    cases hf : e.filter with
    | none => simp [hf] at this
    | some expr => simp [hf]

theorem rangeVerdict_of_rule {r : SyscallRange} {n : UInt32} (h : r.action = policy.rule n) :
    rangeVerdict load r = actionToRet (policy.select (chainTruth (readArg load)) n) := by
  have hchain := chainVerdict_mapping load (policy.entriesFor n)
  have hu : (((policy.entriesFor n).foldl SyscallActions.add {}).unconditional.getD
      policy.defaultAction) = match (policy.entriesFor n).find? (·.filter.isNone) with
        | some e => e.action
        | none => policy.defaultAction := by
    rw [foldl_add_unconditional]
    cases (policy.entriesFor n).find? (·.filter.isNone) <;> rfl
  have hc : ((policy.entriesFor n).foldl SyscallActions.add {}).conditionals =
      (policy.entriesFor n).filterMap PolicyEntry.mapping? := by
    rw [foldl_add_conditionals]
    rfl
  have hselect : chainVerdict load ((policy.entriesFor n).filterMap PolicyEntry.mapping?)
      (actionToRet (((policy.entriesFor n).foldl SyscallActions.add {}).unconditional.getD
        policy.defaultAction)) = actionToRet (policy.select (chainTruth (readArg load)) n) := by
    rw [hchain, hu, Policy.select, selectAction]
    cases (policy.entriesFor n).find? fun e => e.filter.any (chainTruth (readArg load)) <;> rfl
  rw [rangeVerdict, h, Policy.rule, rangeAction, hc, ← hselect]
  split_ifs with hnil
  · rw [List.isEmpty_iff.1 hnil]
    rfl
  · rfl

/-- The arguments that the policy's filters read. -/
def Policy.argIndices (policy : Policy) : List UInt8 :=
  policy.entries.flatMap fun e => (e.filter.map Expr.argIndices).getD []

theorem proper_of_rule {r : SyscallRange} {n : UInt32} (h : r.action = policy.rule n) :
    r.Proper policy.argIndices := by
  have hc : ((policy.entriesFor n).foldl SyscallActions.add {}).conditionals =
      (policy.entriesFor n).filterMap PolicyEntry.mapping? := by
    rw [foldl_add_conditionals]
    rfl
  rw [Policy.rule, rangeAction, hc] at h
  split_ifs at h with hnil
  · exact ⟨by simp [SyscallRange.mappings, h], by simp [h]⟩
  · refine ⟨?_, ?_⟩
    · simp only [SyscallRange.mappings, h, List.mem_filterMap]
      rintro m ⟨e, he, hm⟩ i hi
      unfold PolicyEntry.mapping? at hm
      obtain ⟨expr, hexpr, rfl⟩ := Option.map_eq_some_iff.1 hm
      exact List.mem_flatMap.2 ⟨e, List.mem_of_mem_filter he, by simpa [hexpr] using hi⟩
    · rintro ms fallback hms rfl
      rw [h] at hms
      simp only [RangeAction.conditional.injEq] at hms
      exact hnil (by simp [hms.1])

end Rule

/-! ## The range of a number -/

section Pick

variable {rule : UInt32 → RangeAction} {ranges : List SyscallRange} {next n : UInt32}

theorem Laid.firsts_lt (h : Laid rule (fun x y => x.toNat + 1 = y.toNat) ranges) :
    ranges.IsChain (·.first < ·.first) := by
  refine h.chain.imp_of_mem_imp fun r r' hr _ hadj => ?_
  have := h.nonempty r hr
  simp only [UInt32.le_iff_toNat_le, UInt32.lt_iff_toNat_lt] at *
  omega

theorem Laid.last_le_getLast : ∀ {rs : List SyscallRange} {r l : SyscallRange},
    Laid rule (fun x y => x.toNat + 1 = y.toNat) (r :: rs) → (r :: rs).getLast? = some l →
    r.last ≤ l.last
  | [], r, l, _, hl => by
    obtain rfl : r = l := by simpa using hl
    exact le_rfl
  | r' :: rs, r, l, h, hl => by
    have hle := h.of_cons.last_le_getLast (l := l) (by simpa using hl)
    have hadj := (List.isChain_cons_cons.1 h.chain).1
    have hne := h.nonempty r' (by simp)
    simp only [UInt32.le_iff_toNat_le] at *
    omega

/-- A number is picked by the range that has it, or by the last one. -/
theorem Laid.pickRange_eq : ∀ {rs : List SyscallRange} {r : SyscallRange},
    Laid rule (fun x y => x.toNat + 1 = y.toNat) (r :: rs) → r.first ≤ n →
    ∃ r' ∈ r :: rs, ReverseCodegen.pickRange (r :: rs) n = some r' ∧ r'.first ≤ n ∧
      (n ≤ r'.last ∧ (∀ l ∈ (r :: rs).getLast?, r'.last ≤ l.last) ∨ (r :: rs).getLast? = some r')
  | [], r, _, hn => ⟨r, by simp, by simp [ReverseCodegen.pickRange, hn], hn, .inr rfl⟩
  | r₁ :: rs, r, h, hn => by
    by_cases hn₁ : r₁.first ≤ n
    · obtain ⟨r', hr', hpick, hfirst, hlast⟩ := h.of_cons.pickRange_eq hn₁
      refine ⟨r', by simp [hr'], by rw [ReverseCodegen.pickRange, hpick], hfirst, ?_⟩
      rwa [List.getLast?_cons_cons]
    · have hnone : ReverseCodegen.pickRange (r₁ :: rs) n = none :=
        ReverseCodegen.pickRange_eq_none h.of_cons.firsts_lt (by simpa using hn₁)
      have hadj := (List.isChain_cons_cons.1 h.chain).1
      refine ⟨r, by simp, by rw [ReverseCodegen.pickRange, hnone, if_pos hn], hn,
        .inl ⟨?_, fun l hl => h.last_le_getLast hl⟩⟩
      simp only [UInt32.le_iff_toNat_le] at *
      omega

/-- Numbers above the ranges go by the rule of the highest number below. -/
theorem Filled.pickRange_eq {top : UInt32} (h : Filled rule ranges (top + 1))
    (htop : top ≠ MAX_U32) :
    ∃ r, ReverseCodegen.pickRange ranges n = some r ∧ r.action = rule (min n top) := by
  have hsucc := toNat_succ htop
  cases ranges with
  | nil =>
    have := h.last
    simp [hsucc] at this
  | cons r₀ rs =>
    have hstart : r₀.first ≤ n := (h.start r₀ rfl) ▸ UInt32.zero_le
    obtain ⟨r, hr, hpick, hfirst, hlast⟩ := h.laid.pickRange_eq hstart
    obtain ⟨l, hl⟩ : ∃ l, (r₀ :: rs).getLast? = some l :=
      ⟨_, List.getLast?_eq_some_getLast (by simp)⟩
    have hltop : l.last = top := by
      have := h.last
      rw [hl, hsucc] at this
      exact UInt32.toNat_inj.1 (by simpa using this)
    have hne := h.laid.nonempty r hr
    refine ⟨r, hpick, (h.laid.rule_eq r hr _ ?_).symm⟩
    rcases hlast with ⟨hn, hle⟩ | hr'
    · rw [min_eq_left (hn.trans ((hle l hl).trans hltop.le))]
      exact ⟨hfirst, hn⟩
    · obtain rfl : l = r := by simpa [hl] using hr'
      subst hltop
      exact ⟨le_min hfirst hne, min_le_right _ _⟩

end Pick

/-! ## The program of a policy -/

section Program

variable {policy : Policy} {b : Build} {prog : List SockFilter}

theorem topNumber_ne_max (hmax : ∀ e ∈ policy.entries, e.syscallNumber ≠ MAX_U32) :
    policy.topNumber ≠ MAX_U32 := by
  unfold Policy.topNumber
  revert hmax
  induction policy.entries with
  | nil => simp [MAX_SYSCALL_NR, MAX_U32]
  | cons e es ih =>
    intro hmax
    simp only [List.mem_cons, forall_eq_or_imp, List.foldr_cons] at hmax ⊢
    rcases max_choice e.syscallNumber (es.foldr (fun e m => max e.syscallNumber m) MAX_SYSCALL_NR)
      with h | h <;> rw [h]
    · exact hmax.1
    · exact ih hmax.2

/-- What a program returns for a number. -/
theorem codegen_exec (hmax : ∀ e ∈ policy.entries, e.syscallNumber ≠ MAX_U32)
    (hfit : policy.JumpsFit) (h : policy.codegen b = .ok prog) {load : UInt32 → UInt32}
    (harch : load OFFSET_ARCH = AUDIT_ARCH_X86_64) :
    Bpf.exec prog load = some (actionToRet
      (policy.select (chainTruth (readArg load)) (min (load OFFSET_NR) policy.topNumber))) := by
  have hdebug := codegen_eq_debug hmax hfit h
  obtain ⟨ranges, hranges, hfilled⟩ := normalizeRanges_spec (b := .debug) hmax
  have hproper : ∀ r ∈ ranges, r.Proper policy.argIndices := fun r hr =>
    proper_of_rule (n := r.first)
      (hfilled.laid.rule_eq r hr r.first ⟨le_rfl, hfilled.laid.nonempty r hr⟩).symm
  obtain ⟨r, hpick, hrule⟩ := hfilled.pickRange_eq (n := load OFFSET_NR) (topNumber_ne_max hmax)
  have hexec := (ReverseCodegen.generate_spec hranges hproper hfilled.laid.firsts_lt
    hdebug).2.2.2 rfl load r harch hpick
  rw [hexec, rangeVerdict_of_rule hrule]

end Program

end Pnut.Kafel
