import Pnut.Kafel.Ranges

/-!
# What the ranges cover

As long as no entry is for the largest number, the ranges of a policy lie end to end from 0, past
`MAX_SYSCALL_NR` and past every number with an entry, and each holds numbers of one rule. A range is
pushed on the end of a list, or lengthens the last one when both have the same action.
-/

namespace Pnut.Kafel

/-! ## The rule of a number -/

/-- The mapping of an entry with a filter. -/
def PolicyEntry.mapping? (entry : PolicyEntry) : Option ConditionalMapping :=
  entry.filter.map fun expr => ⟨expr, entry.action⟩

section Grouping

variable {entries : List PolicyEntry} {acc : SyscallActions}

theorem foldl_add_conditionals : ∀ (entries : List PolicyEntry) (acc : SyscallActions),
    (entries.foldl SyscallActions.add acc).conditionals =
      acc.conditionals ++ entries.filterMap PolicyEntry.mapping?
  | [], acc => by simp
  | e :: es, acc => by
    rw [List.foldl_cons, foldl_add_conditionals es, SyscallActions.add]
    cases hf : e.filter with
    | some expr => simp [PolicyEntry.mapping?, hf]
    | none => cases hu : acc.unconditional <;> simp [PolicyEntry.mapping?, hf]

theorem foldl_add_unconditional : ∀ (entries : List PolicyEntry) (acc : SyscallActions),
    (entries.foldl SyscallActions.add acc).unconditional =
      acc.unconditional.or ((entries.find? (·.filter.isNone)).map PolicyEntry.action)
  | [], acc => by simp
  | e :: es, acc => by
    rw [List.foldl_cons, foldl_add_unconditional es, SyscallActions.add]
    cases hf : e.filter with
    | some expr => simp [hf]
    | none => cases hu : acc.unconditional <;> simp [hf, hu]

/-- The map binds a number to its entries, in list order. -/
theorem foldl_upsert_get? (nr : UInt32) : ∀ (entries : List PolicyEntry)
    (m : SortedMap UInt32 SyscallActions),
    (entries.foldl (fun grouped entry => grouped.upsert entry.syscallNumber fun actions =>
      (actions.getD {}).add entry) m).get? nr =
      if (entries.filter (·.syscallNumber = nr)).isEmpty then m.get? nr
      else some ((entries.filter (·.syscallNumber = nr)).foldl .add ((m.get? nr).getD {}))
  | [], m => by simp
  | e :: es, m => by
    rw [List.foldl_cons, foldl_upsert_get? nr es, SortedMap.get?_upsert]
    by_cases h : e.syscallNumber = nr
    · subst h
      cases hes : es.filter (·.syscallNumber = e.syscallNumber) <;> simp [hes]
    · simp [h, Ne.symm h]

theorem groupSyscalls_get? (policy : Policy) (nr : UInt32) :
    (groupSyscalls policy).get? nr =
      if (policy.entriesFor nr).isEmpty then none
      else some ((policy.entriesFor nr).foldl .add {}) := by
  rw [groupSyscalls, foldl_upsert_get?, SortedMap.get?_empty]
  rfl

end Grouping

/-- The rule for a number. -/
def Policy.rule (policy : Policy) (nr : UInt32) : RangeAction :=
  rangeAction ((policy.entriesFor nr).foldl .add {}) policy.defaultAction

theorem Policy.rule_of_isEmpty {policy : Policy} {nr : UInt32} (h : policy.entriesFor nr = []) :
    policy.rule nr = .unconditional policy.defaultAction := by
  simp [Policy.rule, h, rangeAction]

/-- The rule of a number read off the map. -/
theorem toRange_action {policy : Policy} {nr : UInt32} {actions : SyscallActions}
    (h : (groupSyscalls policy).get? nr = some actions) :
    (toRange nr actions policy.defaultAction).action = policy.rule nr := by
  rw [groupSyscalls_get?] at h
  split_ifs at h
  simp only [Option.some.injEq] at h
  rw [toRange, Policy.rule, h]

/-! ## Pushing a range -/

def MAX_U32 : UInt32 := 0xFFFFFFFF

section Push

variable {b : Build} {ranges ranges' : List SyscallRange} {range : SyscallRange}

theorem toNat_succ {x : UInt32} (h : x ≠ MAX_U32) : (x + 1).toNat = x.toNat + 1 := by
  have hlt := x.toNat_lt
  have : x.toNat ≠ 0xFFFFFFFF := fun he => h (UInt32.toNat_inj.1 he)
  rw [UInt32.toNat_add]
  simp only [UInt32.reduceToNat]
  omega

theorem addU32_one {x : UInt32} (h : x ≠ MAX_U32) : addU32 b x 1 = .ok (x + 1) := by
  have hlt := x.toNat_lt
  have : x.toNat ≠ 0xFFFFFFFF := fun he => h (UInt32.toNat_inj.1 he)
  rw [addU32, if_neg]
  simp only [UInt32.reduceToNat, Bool.and_eq_true, decide_eq_true_eq, not_and]
  omega

/-- The numbers of a range. -/
def SyscallRange.Has (r : SyscallRange) (n : UInt32) : Prop := r.first ≤ n ∧ n ≤ r.last

variable (b range) in
/-- A range is pushed as it is, or lengthens the last one. -/
theorem pushRange_cases (hmax : ∀ last ∈ ranges.getLast?, last.last ≠ MAX_U32) :
    pushRange b ranges range = .ok (ranges ++ [range]) ∨
      ∃ init last action, ranges = init ++ [last] ∧ last.last + 1 = range.first ∧
        last.action = .unconditional action ∧ range.action = .unconditional action ∧
        pushRange b ranges range = .ok (init ++ [{ last with last := range.last }]) := by
  unfold pushRange
  cases hlast : ranges.getLast? with
  | none => exact .inl rfl
  | some last =>
    obtain ⟨init, rfl⟩ := List.getLast?_eq_some_iff.1 hlast
    simp only [addU32_one (hmax last hlast), bind, Except.bind]
    split_ifs with hsame
    · right
      simp only [Bool.and_eq_true, decide_eq_true_eq] at hsame
      obtain ⟨hnext, hsame⟩ := hsame
      unfold sameUnconditionalAction at hsame
      split at hsame
      · rename_i a a' ha ha'
        obtain rfl : a = a' := by simpa using hsame
        exact ⟨init, last, a, rfl, hnext, ha, ha', by simp⟩
      · simp at hsame
    · exact .inl rfl

variable {rule : UInt32 → RangeAction} {R : UInt32 → UInt32 → Prop}

variable (rule R) in
/-- Ranges of numbers of one rule each, the end of one before the start of the next. -/
structure Laid (ranges : List SyscallRange) : Prop where
  nonempty : ∀ r ∈ ranges, r.first ≤ r.last
  rule_eq : ∀ r ∈ ranges, ∀ n, r.Has n → rule n = r.action
  chain : ranges.IsChain fun r r' => R r.last r'.first

/-- Some range has the number. -/
def Covered (ranges : List SyscallRange) (n : UInt32) : Prop := ∃ r ∈ ranges, r.Has n

theorem laid_nil : Laid rule R [] := ⟨by simp, by simp, .nil⟩

theorem Laid.append_singleton (h : Laid rule R ranges) (hne : range.first ≤ range.last)
    (hrule : ∀ n, range.Has n → rule n = range.action)
    (hR : ∀ last ∈ ranges.getLast?, R last.last range.first) : Laid rule R (ranges ++ [range]) where
  nonempty := by
    simp only [List.mem_append, List.mem_singleton]
    rintro r (hr | rfl)
    · exact h.nonempty r hr
    · exact hne
  rule_eq := by
    simp only [List.mem_append, List.mem_singleton]
    rintro r (hr | rfl)
    · exact h.rule_eq r hr
    · exact hrule
  chain := by
    rw [List.isChain_append]
    exact ⟨h.chain, .singleton _, by simpa using hR⟩

theorem has_lengthened {last : SyscallRange} {n : UInt32} (hne : last.first ≤ last.last)
    (hrange : range.first ≤ range.last) (hmax : last.last ≠ MAX_U32)
    (hnext : last.last + 1 = range.first) :
    SyscallRange.Has { last with last := range.last } n ↔ last.Has n ∨ range.Has n := by
  have hsucc := toNat_succ hmax
  rw [hnext] at hsucc
  simp only [SyscallRange.Has, UInt32.le_iff_toNat_le] at *
  omega

/-- What a push keeps. -/
theorem pushRange_spec (h : Laid rule R ranges) (hne : range.first ≤ range.last)
    (hrule : ∀ n, range.Has n → rule n = range.action)
    (hmax : ∀ last ∈ ranges.getLast?, last.last ≠ MAX_U32)
    (hR : ∀ last ∈ ranges.getLast?, R last.last range.first) :
    ∃ ranges', pushRange b ranges range = .ok ranges' ∧ Laid rule R ranges' ∧
      (∀ n, Covered ranges' n ↔ Covered ranges n ∨ range.Has n) ∧
      ranges'.getLast?.map SyscallRange.last = some range.last ∧
      ranges'.head?.map SyscallRange.first =
        some ((ranges.head?.map SyscallRange.first).getD range.first) := by
  rcases pushRange_cases b range hmax with
    hpush | ⟨init, last, action, rfl, hnext, hlast, hrange, hpush⟩
  · refine ⟨_, hpush, h.append_singleton hne hrule hR, fun n => ?_, by simp, ?_⟩
    · simp [Covered, or_and_right, exists_or]
    · cases ranges <;> simp
  · have hlmax := hmax last (by simp)
    have hlne := h.nonempty last (by simp)
    have hhas n := has_lengthened (n := n) hlne hne hlmax hnext
    refine ⟨_, hpush, ?_, fun n => ?_, by simp, ?_⟩
    · have hinit : Laid rule R init := ⟨fun r hr => h.nonempty r (by simp [hr]),
        fun r hr => h.rule_eq r (by simp [hr]), (List.isChain_append.1 h.chain).1⟩
      refine hinit.append_singleton ?_ (fun n hn => ?_) fun r hr => ?_
      · have := toNat_succ hlmax
        rw [hnext] at this
        simp only [UInt32.le_iff_toNat_le] at *
        omega
      · rcases (hhas n).1 hn with hn | hn
        · exact h.rule_eq last (by simp) n hn
        · rw [hrule n hn, hlast, hrange]
      · exact (List.isChain_append.1 h.chain).2.2 r hr last rfl
    · simp only [Covered, List.mem_append, List.mem_singleton, or_and_right, exists_or,
        exists_eq_left, hhas, or_assoc]
    · cases init <;> simp

end Push

/-! ## Merging -/

section Merge

variable {b : Build} {rule : UInt32 → RangeAction} {R : UInt32 → UInt32 → Prop}

theorem Laid.of_cons {r : SyscallRange} {rs : List SyscallRange} (h : Laid rule R (r :: rs)) :
    Laid rule R rs where
  nonempty r' hr' := h.nonempty r' (by simp [hr'])
  rule_eq r' hr' := h.rule_eq r' (by simp [hr'])
  chain := (List.isChain_cons.1 h.chain).2

theorem Laid.last_lt : ∀ {rs : List SyscallRange} {r : SyscallRange}, Laid rule (· < ·) (r :: rs) →
    ∀ r' ∈ rs, r.last < r'.first
  | [], _, _, r', hr' => by simp at hr'
  | r₁ :: rs, r, h, r', hr' => by
    have hlt := (List.isChain_cons.1 h.chain).1 r₁ rfl
    rcases List.mem_cons.1 hr' with rfl | hr'
    · exact hlt
    · exact hlt.trans_le ((h.nonempty r₁ (by simp)).trans (h.of_cons.last_lt r' hr').le)

theorem ne_max_of_lt {x y : UInt32} (h : x < y) : x ≠ MAX_U32 := by
  have := y.toNat_lt
  rintro rfl
  simp only [UInt32.lt_iff_toNat_lt, MAX_U32, UInt32.reduceToNat] at h
  omega

theorem foldlM_pushRange_spec : ∀ {L acc : List SyscallRange}, Laid rule (· < ·) acc →
    Laid rule (· < ·) L → (∀ last ∈ acc.getLast?, ∀ r ∈ L.head?, last.last < r.first) →
    ∃ out, L.foldlM (pushRange b) acc = .ok out ∧ Laid rule (· < ·) out ∧
      ∀ n, Covered out n ↔ Covered acc n ∨ Covered L n
  | [], acc, hacc, _, _ => ⟨acc, rfl, hacc, by simp [Covered]⟩
  | r :: rs, acc, hacc, hL, hlt => by
    have hR : ∀ last ∈ acc.getLast?, last.last < r.first := fun last hl => hlt last hl r rfl
    obtain ⟨acc', hpush, hacc', hcov, hlast, -⟩ := pushRange_spec (b := b) hacc
      (hL.nonempty r (by simp)) (hL.rule_eq r (by simp)) (fun last hl => ne_max_of_lt (hR last hl))
      hR
    obtain ⟨out, hout, hlaid, hcov'⟩ := foldlM_pushRange_spec hacc' hL.of_cons (by
      intro last hl r' hr'
      rw [Option.mem_def.1 hl, Option.map_some, Option.some.injEq] at hlast
      exact hlast ▸ (List.isChain_cons.1 hL.chain).1 r' hr')
    refine ⟨out, by simp only [List.foldlM_cons, hpush]; exact hout, hlaid, fun n => ?_⟩
    rw [hcov', hcov]
    simp [Covered, or_assoc]

end Merge

/-! ## Filling -/

section Fill

variable {b : Build} {rule : UInt32 → RangeAction} {defaultAction : Action}

variable (rule) in
/-- Ranges that cover the numbers below `next`, end to end. -/
structure Filled (filled : List SyscallRange) (next : UInt32) : Prop where
  laid : Laid rule (fun x y => x.toNat + 1 = y.toNat) filled
  start : ∀ r ∈ filled.head?, r.first = 0
  last : (filled.getLast?.map fun r => r.last.toNat + 1).getD 0 = next.toNat

variable (rule) in
theorem filled_nil : Filled rule [] 0 := ⟨laid_nil, by simp, rfl⟩

variable (b) in
theorem Filled.push {filled : List SyscallRange} (range : SyscallRange)
    (h : Filled rule filled range.first) (hne : range.first ≤ range.last)
    (hrule : ∀ n, range.Has n → rule n = range.action) (hmax : range.last ≠ MAX_U32) :
    ∃ filled', pushRange b filled range = .ok filled' ∧ Filled rule filled' (range.last + 1) := by
  have hlast := h.last
  obtain ⟨filled', hpush, hlaid, -, hlast', hhead⟩ := pushRange_spec (b := b) h.laid hne hrule
    (fun last hl => by
      rw [Option.mem_def.1 hl] at hlast
      intro hm
      have := range.first.toNat_lt
      simp [hm, MAX_U32] at hlast
      omega)
    (fun last hl => by simpa [Option.mem_def.1 hl] using hlast)
  refine ⟨filled', hpush, hlaid, fun r hr => ?_, ?_⟩
  · rw [Option.mem_def.1 hr] at hhead
    cases hf : filled.head? with
    | none =>
      rw [List.head?_eq_none_iff] at hf
      subst hf
      have : range.first = 0 := UInt32.toNat_inj.1 (by simpa using hlast.symm)
      simpa [this] using hhead
    | some r₀ => simpa [hf, h.start r₀ hf] using hhead
  · obtain ⟨r, hr, hrl⟩ := Option.map_eq_some_iff.1 hlast'
    rw [hr, toNat_succ hmax]
    simp [hrl]

/-- One round of the loop: the gap before the range, then the range. -/
theorem fillStep_spec {filled : List SyscallRange} {next : UInt32} {range : SyscallRange}
    (h : Filled rule filled next) (hle : next ≤ range.first)
    (hgap : ∀ n, next ≤ n → n < range.first → rule n = .unconditional defaultAction) :
    ∃ filled', Filled rule filled' range.first ∧
      fillStep b defaultAction (filled, next) range = (do
        let next ← addU32 b range.last 1
        let filled ← pushRange b filled' range
        .ok (filled, next)) := by
  unfold fillStep
  by_cases hlt : next < range.first
  · have hsub : (range.first - 1).toNat = range.first.toNat - 1 := by
      rw [UInt32.toNat_sub_of_le _ _ (by
        simp only [UInt32.lt_iff_toNat_lt, UInt32.le_iff_toNat_le] at *
        simp
        omega)]
      rfl
    have hsucc : range.first - 1 + 1 = range.first := by simp
    obtain ⟨filled', hpush, hfilled⟩ := Filled.push b
      (defaultRange next (range.first - 1) defaultAction) h
      (by
        simp only [UInt32.lt_iff_toNat_lt, UInt32.le_iff_toNat_le, defaultRange, hsub] at *
        omega)
      (fun n hn => hgap n hn.1 (by
        have := hn.2
        simp only [UInt32.lt_iff_toNat_lt, UInt32.le_iff_toNat_le, defaultRange, hsub] at *
        omega))
      (by
        intro hm
        rw [defaultRange] at hm
        simp only [] at hm
        rw [hm] at hsub
        have := range.first.toNat_lt
        simp [MAX_U32] at hsub
        omega)
    refine ⟨filled', hsucc ▸ hfilled, ?_⟩
    simp [hlt, hpush, bind, Except.bind]
  · obtain rfl : next = range.first := le_antisymm hle (not_lt.1 hlt)
    refine ⟨filled, h, ?_⟩
    simp [bind, Except.bind]

theorem addU32_max (hb : b.overflowChecks = true) :
    addU32 b MAX_U32 1 = panicWith "attempt to add with overflow" := by
  rw [addU32, if_pos]
  simp [hb, MAX_U32]

/-- The ranges that still have to be laid leave nothing but the default between and above them. -/
theorem gap_tail {r : SyscallRange} {rs : List SyscallRange} {next : UInt32}
    (hL : Laid rule (· < ·) (r :: rs)) (hmax : r.last ≠ MAX_U32) (hle : next ≤ r.first)
    (hgap : ∀ n, next ≤ n → ¬ Covered (r :: rs) n → rule n = .unconditional defaultAction) :
    next ≤ r.last + 1 ∧ (∀ r' ∈ rs.head?, r.last + 1 ≤ r'.first) ∧
      ∀ n, r.last + 1 ≤ n → ¬ Covered rs n → rule n = .unconditional defaultAction := by
  have hsucc := toNat_succ hmax
  have hne := hL.nonempty r (by simp)
  have hup : next ≤ r.last + 1 := by
    simp only [UInt32.le_iff_toNat_le, hsucc] at *
    omega
  refine ⟨hup, fun r' hr' => ?_, fun n hn hcov => hgap n (hup.trans hn) ?_⟩
  · have := (List.isChain_cons.1 hL.chain).1 r' hr'
    simp only [UInt32.le_iff_toNat_le, UInt32.lt_iff_toNat_lt, hsucc] at *
    omega
  · rintro ⟨r', hr', hhas⟩
    rcases List.mem_cons.1 hr' with rfl | hr'
    · have := hhas.2
      simp only [UInt32.le_iff_toNat_le, hsucc] at *
      omega
    · exact hcov ⟨r', hr', hhas⟩

theorem gap_head {r : SyscallRange} {rs : List SyscallRange} {next : UInt32}
    (hL : Laid rule (· < ·) (r :: rs))
    (hgap : ∀ n, next ≤ n → ¬ Covered (r :: rs) n → rule n = .unconditional defaultAction) :
    ∀ n, next ≤ n → n < r.first → rule n = .unconditional defaultAction := by
  intro n hn hlt
  refine hgap n hn ?_
  rintro ⟨r', hr', hhas⟩
  rcases List.mem_cons.1 hr' with rfl | hr'
  · exact (hlt.trans_le hhas.1).false
  · have hlast := hL.last_lt r' hr'
    exact (hlt.trans_le ((hL.nonempty r (by simp)).trans (hlast.le.trans hhas.1))).false

theorem foldlM_fillStep_spec : ∀ {L filled : List SyscallRange} {next : UInt32},
    Filled rule filled next → Laid rule (· < ·) L → (∀ r ∈ L.head?, next ≤ r.first) →
    (∀ n, next ≤ n → ¬ Covered L n → rule n = .unconditional defaultAction) →
    (∀ r ∈ L, r.last ≠ MAX_U32) →
    ∃ filled' next', L.foldlM (fillStep b defaultAction) (filled, next) = .ok (filled', next') ∧
      Filled rule filled' next' ∧ (∀ n, next' ≤ n → rule n = .unconditional defaultAction) ∧
      (next' = next ∨ ∃ r ∈ L, next' = r.last + 1) ∧ next ≤ next' ∧ ∀ n, Covered L n → n < next'
  | [], filled, next, hf, _, _, hgap, _ =>
    ⟨filled, next, rfl, hf, fun n hn => hgap n hn (by simp [Covered]), .inl rfl, le_rfl,
      by simp [Covered]⟩
  | r :: rs, filled, next, hf, hL, hle, hgap, hmax => by
    have hrmax := hmax r (by simp)
    obtain ⟨hup, hle', hgap'⟩ := gap_tail hL hrmax (hle r rfl) hgap
    obtain ⟨filled₁, hf₁, hstep⟩ := fillStep_spec (b := b) hf (hle r rfl) (gap_head hL hgap)
    obtain ⟨filled₂, hpush, hf₂⟩ := hf₁.push b r (hL.nonempty r (by simp))
      (hL.rule_eq r (by simp)) hrmax
    obtain ⟨filled', next', hout, hf', hdef, htop, hup', hcov⟩ :=
      foldlM_fillStep_spec hf₂ hL.of_cons hle' hgap' fun r hr => hmax r (by simp [hr])
    refine ⟨filled', next', ?_, hf', hdef, ?_, hup.trans hup', ?_⟩
    · rw [List.foldlM_cons, hstep, addU32_one hrmax]
      simpa [bind, Except.bind, hpush] using hout
    · rcases htop with rfl | ⟨r', hr', rfl⟩
      · exact .inr ⟨r, by simp, rfl⟩
      · exact .inr ⟨r', by simp [hr'], rfl⟩
    · rintro n ⟨r', hr', hhas⟩
      rcases List.mem_cons.1 hr' with rfl | hr'
      · have := hhas.2
        have hsucc := toNat_succ hrmax
        simp only [UInt32.le_iff_toNat_le, UInt32.lt_iff_toNat_lt, hsucc] at *
        omega
      · exact hcov n ⟨r', hr', hhas⟩

/-- A range up to the largest number has no next one. -/
theorem foldlM_fillStep_panics (hb : b.overflowChecks = true) :
    ∀ {L filled : List SyscallRange} {next : UInt32},
    Filled rule filled next → Laid rule (· < ·) L → (∀ r ∈ L.head?, next ≤ r.first) →
    (∀ n, next ≤ n → ¬ Covered L n → rule n = .unconditional defaultAction) →
    (∃ r ∈ L, r.last = MAX_U32) → Panics (L.foldlM (fillStep b defaultAction) (filled, next))
  | [], filled, next, _, _, _, _, h => by simp at h
  | r :: rs, filled, next, hf, hL, hle, hgap, ⟨r', hr', hr'max⟩ => by
    obtain ⟨filled₁, hf₁, hstep⟩ := fillStep_spec (b := b) hf (hle r rfl) (gap_head hL hgap)
    by_cases hrmax : r.last = MAX_U32
    · refine ⟨"attempt to add with overflow", ?_⟩
      rw [List.foldlM_cons, hstep, hrmax, addU32_max hb]
      rfl
    · obtain ⟨hup, hle', hgap'⟩ := gap_tail hL hrmax (hle r rfl) hgap
      obtain ⟨filled₂, hpush, hf₂⟩ := hf₁.push b r (hL.nonempty r (by simp))
        (hL.rule_eq r (by simp)) hrmax
      have hr' : r' ∈ rs := (List.mem_cons.1 hr').resolve_left fun he => hrmax (he ▸ hr'max)
      obtain ⟨m, hm⟩ := foldlM_fillStep_panics hb hf₂ hL.of_cons hle' hgap' ⟨r', hr', hr'max⟩
      refine ⟨m, ?_⟩
      rw [List.foldlM_cons, hstep, addU32_one hrmax]
      simpa [bind, Except.bind, hpush] using hm

end Fill

/-! ## The ranges of a policy -/

section Normalize

variable {b : Build} {policy : Policy}

/-- The numbers with an entry, one range each. -/
def Policy.singles (policy : Policy) : List SyscallRange :=
  (groupSyscalls policy).bindings.map fun (nr, actions) => toRange nr actions policy.defaultAction

theorem has_toRange {nr n : UInt32} {actions : SyscallActions} {d : Action} :
    (toRange nr actions d).Has n ↔ n = nr := by
  simp only [SyscallRange.Has, toRange]
  exact ⟨fun h => le_antisymm h.2 h.1, fun h => h ▸ ⟨le_rfl, le_rfl⟩⟩

theorem covered_singles (n : UInt32) : Covered policy.singles n ↔ policy.entriesFor n ≠ [] := by
  simp only [Covered, Policy.singles, List.mem_map, Prod.exists,
    SortedMap.mem_bindings_iff, groupSyscalls_get?]
  constructor
  · rintro ⟨_, ⟨nr, actions, hget, rfl⟩, hhas⟩
    obtain rfl := has_toRange.1 hhas
    intro hnil
    simp [hnil] at hget
  · intro hne
    exact ⟨_, ⟨n, _, by rw [if_neg (by simpa using hne)], rfl⟩, has_toRange.2 rfl⟩

variable (policy) in
theorem laid_singles : Laid policy.rule (· < ·) policy.singles where
  nonempty := by
    simp only [Policy.singles, List.mem_map, Prod.exists]
    rintro _ ⟨nr, actions, -, rfl⟩
    exact le_rfl
  rule_eq := by
    simp only [Policy.singles, List.mem_map, Prod.exists, SortedMap.mem_bindings_iff]
    rintro _ ⟨nr, actions, hget, rfl⟩ n hn
    obtain rfl := has_toRange.1 hn
    exact (toRange_action hget).symm
  chain := by
    have := (groupSyscalls policy).sorted
    rw [Policy.singles, List.isChain_map]
    rw [List.pairwise_map] at this
    exact this.isChain

/-- The largest number that the ranges cover. -/
def Policy.topNumber (policy : Policy) : UInt32 :=
  policy.entries.foldr (fun e m => max e.syscallNumber m) MAX_SYSCALL_NR

theorem le_topNumber : MAX_SYSCALL_NR ≤ policy.topNumber ∧
    ∀ e ∈ policy.entries, e.syscallNumber ≤ policy.topNumber := by
  unfold Policy.topNumber
  induction policy.entries with
  | nil => exact ⟨le_rfl, by simp⟩
  | cons e es ih =>
    simp only [List.foldr_cons, List.mem_cons, forall_eq_or_imp, le_max_iff, le_refl, true_or,
      true_and]
    exact ⟨.inr ih.1, fun e he => .inr (ih.2 e he)⟩

theorem topNumber_le {n : UInt32} (hn : MAX_SYSCALL_NR ≤ n)
    (he : ∀ e ∈ policy.entries, e.syscallNumber ≤ n) : policy.topNumber ≤ n := by
  unfold Policy.topNumber
  revert he
  induction policy.entries with
  | nil => exact fun _ => hn
  | cons e es ih =>
    intro he
    simp only [List.mem_cons, forall_eq_or_imp, List.foldr_cons, max_le_iff] at he ⊢
    exact ⟨he.1, ih he.2⟩

theorem entriesFor_ne_nil {n : UInt32} :
    policy.entriesFor n ≠ [] ↔ ∃ e ∈ policy.entries, e.syscallNumber = n := by
  simp [Policy.entriesFor, List.filter_eq_nil_iff]

variable (b policy) in
/-- The merged ranges, and what is left for the loop that fills the gaps. -/
theorem merged_spec : ∃ merged, mergeAdjacentUnconditional b policy.singles = .ok merged ∧
    Laid policy.rule (· < ·) merged ∧
    ∀ n, Covered merged n ↔ ∃ e ∈ policy.entries, e.syscallNumber = n := by
  obtain ⟨merged, hmerged, hlaid, hcov⟩ := foldlM_pushRange_spec (b := b)
    (laid_nil (R := (· < ·))) (laid_singles policy) (by simp)
  refine ⟨merged, hmerged, hlaid, fun n => ?_⟩
  rw [hcov, covered_singles, entriesFor_ne_nil]
  simp [Covered]

theorem rule_of_not_covered {merged : List SyscallRange}
    (hcov : ∀ n, Covered merged n ↔ ∃ e ∈ policy.entries, e.syscallNumber = n) (n : UInt32)
    (hn : ¬ Covered merged n) : policy.rule n = .unconditional policy.defaultAction :=
  Policy.rule_of_isEmpty (not_not.1 fun hne => hn ((hcov n).2 (entriesFor_ne_nil.1 hne)))

theorem normalizeRanges_eq {merged : List SyscallRange} (hne : policy.entries ≠ [])
    (hmerged : mergeAdjacentUnconditional b policy.singles = .ok merged) (hne' : merged ≠ []) :
    normalizeRanges b policy = (do
      let (filled, next) ← merged.foldlM (fillStep b policy.defaultAction) ([], 0)
      if next ≤ MAX_SYSCALL_NR then
        pushRange b filled (defaultRange next MAX_SYSCALL_NR policy.defaultAction)
      else .ok filled) := by
  rw [normalizeRanges, if_neg (by simpa using hne)]
  change (mergeAdjacentUnconditional b policy.singles >>= _) = _
  rw [hmerged]
  change fillGaps b merged policy.defaultAction = _
  rw [fillGaps, if_neg (by simpa using hne')]

theorem normalizeRanges_spec (hmax : ∀ e ∈ policy.entries, e.syscallNumber ≠ MAX_U32) :
    ∃ ranges, normalizeRanges b policy = .ok ranges ∧
      Filled policy.rule ranges (policy.topNumber + 1) := by
  by_cases hnil : policy.entries = []
  · have htop : policy.topNumber = MAX_SYSCALL_NR := by simp [Policy.topNumber, hnil]
    obtain ⟨ranges, hpush, hfilled⟩ := Filled.push b
      (defaultRange 0 MAX_SYSCALL_NR policy.defaultAction) (filled_nil policy.rule)
      UInt32.zero_le (fun n _ => Policy.rule_of_isEmpty (by simp [Policy.entriesFor, hnil]))
      (by simp [defaultRange, MAX_SYSCALL_NR, MAX_U32])
    refine ⟨ranges, ?_, htop ▸ hfilled⟩
    simpa [normalizeRanges, hnil, pushRange] using hpush
  obtain ⟨merged, hmerged, hlaid, hcov⟩ := merged_spec b policy
  have hlast : ∀ r ∈ merged, ∃ e ∈ policy.entries, e.syscallNumber = r.last := fun r hr =>
    (hcov r.last).1 ⟨r, hr, hlaid.nonempty r hr, le_rfl⟩
  have hlmax : ∀ r ∈ merged, r.last ≠ MAX_U32 := fun r hr => by
    obtain ⟨e, he, hnr⟩ := hlast r hr
    exact hnr ▸ hmax e he
  obtain ⟨filled, next, hfold, hfilled, hdef, hnext, -, hlt⟩ := foldlM_fillStep_spec (b := b)
    (filled_nil _) hlaid (fun _ _ => UInt32.zero_le) (fun n _ => rule_of_not_covered hcov n) hlmax
  have hbelow : ∀ e ∈ policy.entries, e.syscallNumber < next := fun e he =>
    hlt e.syscallNumber ((hcov _).2 ⟨e, he, rfl⟩)
  have hne : merged ≠ [] := by
    rintro rfl
    obtain ⟨e, he⟩ := List.exists_mem_of_ne_nil _ hnil
    obtain ⟨r, hr, -⟩ := (hcov e.syscallNumber).2 ⟨e, he, rfl⟩
    simp at hr
  rw [normalizeRanges_eq hnil hmerged hne, hfold]
  by_cases htop : next ≤ MAX_SYSCALL_NR
  · have htopNumber : policy.topNumber = MAX_SYSCALL_NR :=
      le_antisymm (topNumber_le le_rfl fun e he => (hbelow e he).le.trans htop) le_topNumber.1
    obtain ⟨ranges, hpush, hfilled'⟩ := Filled.push b
      (defaultRange next MAX_SYSCALL_NR policy.defaultAction) hfilled htop
      (fun n hn => hdef n hn.1) (by simp [defaultRange, MAX_SYSCALL_NR, MAX_U32])
    exact ⟨ranges, by simpa [bind, Except.bind, htop] using hpush, htopNumber ▸ hfilled'⟩
  · obtain ⟨r, hr, rfl⟩ := hnext.resolve_left (by rintro rfl; exact htop UInt32.zero_le)
    have hsucc := toNat_succ (hlmax r hr)
    have htopNumber : policy.topNumber = r.last := by
      obtain ⟨e, he, hnr⟩ := hlast r hr
      refine le_antisymm (topNumber_le ?_ fun e he => ?_) (hnr ▸ le_topNumber.2 e he)
      · simp only [UInt32.le_iff_toNat_le, hsucc] at *
        omega
      · have := hbelow e he
        simp only [UInt32.le_iff_toNat_le, UInt32.lt_iff_toNat_lt, hsucc] at *
        omega
    exact ⟨filled, by simp [bind, Except.bind, htop], htopNumber ▸ hfilled⟩

/-- An entry for the largest number overflows the number after it. -/
theorem normalizeRanges_panics (hb : b.overflowChecks = true)
    (hmax : ∃ e ∈ policy.entries, e.syscallNumber = MAX_U32) :
    Panics (normalizeRanges b policy) := by
  obtain ⟨merged, hmerged, hlaid, hcov⟩ := merged_spec b policy
  obtain ⟨r, hr, hhas⟩ := (hcov MAX_U32).2 hmax
  have hrmax : r.last = MAX_U32 := le_antisymm (by
    have := r.last.toNat_lt
    simp only [UInt32.le_iff_toNat_le, MAX_U32, UInt32.reduceToNat]
    omega) hhas.2
  obtain ⟨m, hm⟩ := foldlM_fillStep_panics hb (filled_nil _) hlaid (fun _ _ => UInt32.zero_le)
    (fun n _ => rule_of_not_covered hcov n) ⟨r, hr, hrmax⟩
  obtain ⟨e, he, -⟩ := hmax
  refine ⟨m, ?_⟩
  rw [normalizeRanges_eq (List.ne_nil_of_mem he) hmerged (List.ne_nil_of_mem hr), hm]
  rfl

end Normalize

end Pnut.Kafel
