import Pnut.Proofs.Normalize

/-!
# The ranges are a partition

A policy whose numbers are at most `MAX_SYSCALL_NR` becomes ranges that partition the numbers up to
it. Every push keeps neighbours apart: a range that could have been joined with the one before it
has lengthened it instead.
-/

namespace Pnut.Kafel

/-! ## Neighbours -/

section Parted

variable {b : Build} {ranges ranges' : List SyscallRange} {range : SyscallRange}

/-- No range starts right after one with the same unconditional action. -/
def Parted (ranges : List SyscallRange) : Prop :=
  ranges.IsChain fun r r' => r.last + 1 = r'.first →
    sameUnconditionalAction r.action r'.action = false

theorem addU32_eq_ok {x y z : UInt32} (h : addU32 b x y = .ok z) : z = x + y := by
  unfold addU32 at h
  split_ifs at h
  · simp at h
  · simpa using h.symm

theorem Parted.push (h : Parted ranges) (hpush : pushRange b ranges range = .ok ranges') :
    Parted ranges' := by
  unfold pushRange at hpush
  cases hlast : ranges.getLast? with
  | none =>
    obtain rfl := List.getLast?_eq_none_iff.1 hlast
    simp only [List.getLast?_nil, List.nil_append, Except.ok.injEq] at hpush
    subst hpush
    exact List.isChain_singleton _
  | some last =>
    obtain ⟨init, rfl⟩ := List.getLast?_eq_some_iff.1 hlast
    simp only [hlast, bind_eq_ok] at hpush
    obtain ⟨next, hnext, hpush⟩ := hpush
    obtain rfl := addU32_eq_ok hnext
    split_ifs at hpush with hsame
    · -- the last range is lengthened, and keeps its start and its action
      simp only [List.dropLast_concat, Except.ok.injEq] at hpush
      subst hpush
      unfold Parted at h ⊢
      rw [List.isChain_append] at h ⊢
      exact ⟨h.1, List.isChain_singleton _, by simpa using h.2.2⟩
    · simp only [Except.ok.injEq] at hpush
      subst hpush
      unfold Parted at h ⊢
      rw [List.isChain_append]
      refine ⟨h, List.isChain_singleton _, ?_⟩
      intro r hr r' hr' hfirst
      obtain rfl : last = r := by simpa [hlast] using hr
      obtain rfl : range = r' := by simpa using hr'
      simpa [hfirst] using hsame

theorem Parted.fillStep {d : Action} {next next' : UInt32} (h : Parted ranges)
    (hstep : fillStep b d (ranges, next) range = .ok (ranges', next')) : Parted ranges' := by
  simp only [Kafel.fillStep] at hstep
  split_ifs at hstep with hgap
  · simp only [bind_eq_ok, Except.ok.injEq, Prod.mk.injEq] at hstep
    obtain ⟨filled, hfill, _, -, _, hpush, rfl, -⟩ := hstep
    exact (h.push hfill).push hpush
  · simp only [ok_bind, bind_eq_ok, Except.ok.injEq, Prod.mk.injEq] at hstep
    obtain ⟨_, -, _, hpush, rfl, -⟩ := hstep
    exact h.push hpush

theorem Parted.foldlM_fillStep {d : Action} : ∀ {L ranges : List SyscallRange}
    {next next' : UInt32}, Parted ranges →
    L.foldlM (Kafel.fillStep b d) (ranges, next) = .ok (ranges', next') → Parted ranges'
  | [], ranges, next, next', h, hfold => by
    simp only [List.foldlM_nil, pure, Except.pure, Except.ok.injEq, Prod.mk.injEq] at hfold
    exact hfold.1 ▸ h
  | r :: rs, ranges, next, next', h, hfold => by
    simp only [List.foldlM_cons, bind_eq_ok] at hfold
    obtain ⟨⟨filled, next₁⟩, hstep, hfold⟩ := hfold
    exact (h.fillStep hstep).foldlM_fillStep hfold

theorem parted_normalizeRanges {policy : Policy} (h : normalizeRanges b policy = .ok ranges) :
    Parted ranges := by
  have hsingle (r : SyscallRange) : Parted [r] := List.isChain_singleton r
  unfold normalizeRanges at h
  split_ifs at h
  · simp only [Except.ok.injEq] at h
    exact h ▸ hsingle _
  simp only [bind_eq_ok] at h
  obtain ⟨merged, -, h⟩ := h
  unfold fillGaps at h
  split_ifs at h
  · simp only [Except.ok.injEq] at h
    exact h ▸ hsingle _
  simp only [bind_eq_ok] at h
  obtain ⟨⟨filled, next⟩, hfold, h⟩ := h
  have hfilled : Parted filled := Parted.foldlM_fillStep (List.isChain_nil) hfold
  split_ifs at h with htop
  · exact hfilled.push h
  · simp only [Except.ok.injEq] at h
    exact h ▸ hfilled

end Parted

/-! ## The rule that a number's entries give -/

/-- The filtered entries in list order, over the first entry without a filter or the default. -/
def Policy.ruleOf (policy : Policy) (nr : UInt32) : RangeAction :=
  let entries := policy.entriesFor nr
  let fallback := ((entries.find? (·.filter.isNone)).map PolicyEntry.action).getD
    policy.defaultAction
  match entries.filterMap PolicyEntry.mapping? with
  | [] => .unconditional fallback
  | mapping :: mappings => .conditional (mapping :: mappings) fallback

theorem Policy.rule_eq_ruleOf (policy : Policy) (nr : UInt32) :
    policy.rule nr = policy.ruleOf nr := by
  unfold Policy.rule Policy.ruleOf rangeAction
  rw [foldl_add_conditionals, foldl_add_unconditional]
  cases hm : (policy.entriesFor nr).filterMap PolicyEntry.mapping? <;> simp [hm]

/-! ## The partition -/

/-- Ranges that cut the numbers up to `top` into pieces, in ascending order. -/
structure Partition (ranges : List SyscallRange) (top : UInt32) : Prop where
  ordered : ∀ r ∈ ranges, r.first ≤ r.last
  contiguous : ranges.IsChain fun r r' => r.last.toNat + 1 = r'.first.toNat
  disjoint : ranges.Pairwise fun r r' => r.last < r'.first
  start : ∀ r ∈ ranges.head?, r.first = 0
  covers : ∀ n, (∃ r ∈ ranges, r.Has n) ↔ n ≤ top

section Partition

variable {rule : UInt32 → RangeAction} {ranges : List SyscallRange}

theorem Laid.ascending (h : Laid rule (fun x y => x.toNat + 1 = y.toNat) ranges) :
    Laid rule (· < ·) ranges where
  nonempty := h.nonempty
  rule_eq := h.rule_eq
  chain := h.chain.imp fun r r' hr => by
    rw [UInt32.lt_iff_toNat_lt]
    omega

theorem Laid.disjoint : ∀ {ranges : List SyscallRange}, Laid rule (· < ·) ranges →
    ranges.Pairwise fun r r' => r.last < r'.first
  | [], _ => .nil
  | _ :: _, h => .cons h.last_lt h.of_cons.disjoint

/-- Ranges laid end to end have every number from the first one's start to the last one's end. -/
theorem Laid.covered_iff : ∀ {ranges : List SyscallRange} {first last : SyscallRange},
    Laid rule (fun x y => x.toNat + 1 = y.toNat) ranges → ranges.head? = some first →
    ranges.getLast? = some last → ∀ n, Covered ranges n ↔ first.first ≤ n ∧ n ≤ last.last
  | [r], first, last, h, hfirst, hlast, n => by
    obtain rfl : r = first := by simpa using hfirst
    obtain rfl : r = last := by simpa using hlast
    simp [Covered, SyscallRange.Has]
  | r :: r' :: rs, first, last, h, hfirst, hlast, n => by
    obtain rfl : r = first := by simpa using hfirst
    have hnext : r.last.toNat + 1 = r'.first.toNat := (List.isChain_cons_cons.1 h.chain).1
    have hne := h.nonempty r (by simp)
    have hlast : (r' :: rs).getLast? = some last := by
      rwa [List.getLast?_cons_cons] at hlast
    have ih := h.of_cons.covered_iff rfl hlast n
    have hmem := List.mem_of_getLast? hlast
    -- the rest ends after it starts
    have hrest : r'.first ≤ last.last := ((h.of_cons.covered_iff rfl hlast last.last).1
      ⟨last, hmem, h.of_cons.nonempty last hmem, le_rfl⟩).1
    have hsplit : Covered (r :: r' :: rs) n ↔ r.Has n ∨ Covered (r' :: rs) n := by
      simp [Covered]
    rw [hsplit, ih]
    simp only [SyscallRange.Has, UInt32.le_iff_toNat_le] at *
    omega

theorem Filled.partition {top : UInt32} (h : Filled rule ranges (top + 1)) (htop : top ≠ MAX_U32) :
    Partition ranges top where
  ordered := h.laid.nonempty
  contiguous := h.laid.chain
  disjoint := h.laid.ascending.disjoint
  start := h.start
  covers n := by
    have hlast := h.last
    rw [toNat_succ htop] at hlast
    cases hl : ranges.getLast? with
    | none => simp [hl] at hlast
    | some last =>
      obtain ⟨first, hfirst⟩ : ∃ first, ranges.head? = some first := by
        cases ranges with
        | nil => simp at hl
        | cons r rs => exact ⟨r, rfl⟩
      have htop : last.last = top := UInt32.toNat_inj.1 (by simpa [hl] using hlast)
      have := h.laid.covered_iff hfirst hl n
      rw [h.start first hfirst, htop] at this
      exact this.trans (and_iff_right UInt32.zero_le)

end Partition

/-- The ranges of a policy up to `MAX_SYSCALL_NR` partition the numbers, no two neighbours could be
one range, and each range has the rule of its numbers. -/
theorem normalizeRanges_partition {b : Build} {policy : Policy}
    (h : ∀ e ∈ policy.entries, e.syscallNumber ≤ MAX_SYSCALL_NR) :
    ∃ ranges, normalizeRanges b policy = .ok ranges ∧ Partition ranges MAX_SYSCALL_NR ∧
      (ranges.IsChain fun r r' => sameUnconditionalAction r.action r'.action = false) ∧
      ∀ r ∈ ranges, ∀ nr, r.Has nr → r.action = policy.ruleOf nr := by
  have hmax : ∀ e ∈ policy.entries, e.syscallNumber ≠ MAX_U32 := fun e he hm =>
    absurd (hm ▸ h e he) (by decide)
  have htop : policy.topNumber = MAX_SYSCALL_NR :=
    le_antisymm (topNumber_le le_rfl h) le_topNumber.1
  obtain ⟨ranges, hranges, hfilled⟩ := normalizeRanges_spec (b := b) hmax
  rw [htop] at hfilled
  have hpart := hfilled.partition (by decide)
  have hparted := parted_normalizeRanges hranges
  refine ⟨ranges, hranges, hpart, ?_, ?_⟩
  · have hboth := List.isChain_iff_getElem.1 hparted
    have hnext := List.isChain_iff_getElem.1 hpart.contiguous
    refine List.isChain_iff_getElem.2 fun i hi => hboth i hi ?_
    rw [← UInt32.toNat_inj, toNat_succ, hnext i hi]
    refine ne_max_of_lt (y := ranges[i + 1].first) ?_
    rw [UInt32.lt_iff_toNat_lt, ← hnext i hi]
    exact Nat.lt_succ_self _
  · intro r hr nr hnr
    rw [← hfilled.laid.rule_eq r hr nr hnr, Policy.rule_eq_ruleOf]

/-- Three entries for two neighbouring numbers, the last of them without effect. -/
def neighbourPolicy : Policy :=
  ⟨[⟨1, .allow, none⟩, ⟨0, .allow, none⟩, ⟨1, .log, none⟩], .kill⟩

theorem neighbourPolicy_partition :
    ∃ ranges, normalizeRanges .debug neighbourPolicy = .ok ranges ∧
      Partition ranges MAX_SYSCALL_NR ∧
      (ranges.IsChain fun r r' => sameUnconditionalAction r.action r'.action = false) ∧
      ∀ r ∈ ranges, ∀ nr, r.Has nr → r.action = neighbourPolicy.ruleOf nr :=
  normalizeRanges_partition (by decide)

end Pnut.Kafel
