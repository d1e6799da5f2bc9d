import Mathlib.Tactic

/-!
# Sorted maps

Finite maps as lists of bindings in ascending order of the keys, the order an ordered map iterates
in. The order is part of the type, so a map cannot bind a key twice.
-/

universe u v

theorem lookup_cons_ite {K : Type u} [DecidableEq K] {V : Type v} (k k' : K) (v : V)
    (m : List (K × V)) :
    ((k, v) :: m).lookup k' = if k' = k then some v else m.lookup k' := by
  by_cases h : k' = k <;> simp [List.lookup_cons, h, beq_false_of_ne]

theorem mem_keys_of_lookup {K : Type u} [DecidableEq K] {V : Type v} {k : K} {v : V}
    {m : List (K × V)} (h : m.lookup k = some v) : k ∈ m.map Prod.fst := by
  obtain ⟨l, r, rfl, -⟩ := List.lookup_eq_some_iff.1 h
  simp

/-- With distinct keys, what a key is bound to does not depend on the order of the bindings. -/
theorem lookup_eq_some_iff_mem {K : Type u} [DecidableEq K] {V : Type v} {k : K} {v : V} :
    ∀ {m : List (K × V)}, (m.map Prod.fst).Nodup → (m.lookup k = some v ↔ (k, v) ∈ m)
  | [], _ => by simp
  | (k₀, v₀) :: m, h => by
    simp only [List.map_cons, List.nodup_cons] at h
    rw [lookup_cons_ite, List.mem_cons]
    split_ifs with hk
    · subst hk
      have : (k, v) ∉ m := fun hm => h.1 (List.mem_map_of_mem (f := Prod.fst) hm)
      simp [this, eq_comm]
    · rw [lookup_eq_some_iff_mem h.2]
      simp [hk]

theorem lookup_reverse {K : Type u} [DecidableEq K] {V : Type v} {m : List (K × V)}
    (h : (m.map Prod.fst).Nodup) (k : K) : m.reverse.lookup k = m.lookup k := by
  have hrev : (m.reverse.map Prod.fst).Nodup := by rwa [List.map_reverse, List.nodup_reverse]
  refine Option.ext fun v => ?_
  rw [lookup_eq_some_iff_mem hrev, lookup_eq_some_iff_mem h, List.mem_reverse]

variable {K : Type u} [LinearOrder K] {V : Type v}

/-- Bind `k` to `f` of what it is bound to, keeping the order. -/
def upsertSorted (k : K) (f : Option V → V) : List (K × V) → List (K × V)
  | [] => [(k, f none)]
  | (k', v) :: m =>
    if k < k' then (k, f none) :: (k', v) :: m
    else if k = k' then (k, f (some v)) :: m
    else (k', v) :: upsertSorted k f m

theorem mem_keys_upsertSorted (k : K) (f : Option V → V) : ∀ (m : List (K × V)) (k' : K),
    k' ∈ (upsertSorted k f m).map Prod.fst ↔ k' = k ∨ k' ∈ m.map Prod.fst
  | [], k' => by simp [upsertSorted]
  | (k₀, v) :: m, k' => by
    have ih := mem_keys_upsertSorted k f m k'
    simp only [upsertSorted]
    split_ifs with h1 h2
    · simp
    · subst h2; simp
    · simp only [List.map_cons, List.mem_cons, ih]
      tauto

theorem upsertSorted_sorted (k : K) (f : Option V → V) : ∀ {m : List (K × V)},
    (m.map Prod.fst).Pairwise (· < ·) → ((upsertSorted k f m).map Prod.fst).Pairwise (· < ·)
  | [], _ => by simp [upsertSorted]
  | (k₀, v) :: m, h => by
    simp only [List.map_cons, List.pairwise_cons] at h
    simp only [upsertSorted]
    split_ifs with h1 h2
    · simp only [List.map_cons, List.pairwise_cons, List.mem_cons, forall_eq_or_imp]
      exact ⟨⟨h1, fun k' hk' => h1.trans (h.1 k' hk')⟩, h⟩
    · subst h2
      simpa only [List.map_cons, List.pairwise_cons] using h
    · simp only [List.map_cons, List.pairwise_cons]
      refine ⟨fun k' hk' => ?_, upsertSorted_sorted k f h.2⟩
      rcases (mem_keys_upsertSorted k f m k').1 hk' with rfl | hk'
      · exact lt_of_le_of_ne (not_lt.1 h1) (fun he => h2 he.symm)
      · exact h.1 k' hk'

/-- A map in ascending order of its keys. -/
structure SortedMap (K : Type u) [LinearOrder K] (V : Type v) where
  bindings : List (K × V)
  sorted : (bindings.map Prod.fst).Pairwise (· < ·)

namespace SortedMap

def empty : SortedMap K V := ⟨[], by simp⟩

/-- Bind `k` to `f` of what it is bound to. -/
def upsert (m : SortedMap K V) (k : K) (f : Option V → V) : SortedMap K V :=
  ⟨upsertSorted k f m.bindings, upsertSorted_sorted k f m.sorted⟩

def get? (m : SortedMap K V) (k : K) : Option V := m.bindings.lookup k

theorem lookup_upsertSorted (k : K) (f : Option V → V) : ∀ {m : List (K × V)},
    (m.map Prod.fst).Pairwise (· < ·) → ∀ k', (upsertSorted k f m).lookup k' =
      if k' = k then some (f (m.lookup k)) else m.lookup k'
  | [], _, k' => by simp [upsertSorted, lookup_cons_ite]
  | (k₀, v) :: m, h, k' => by
    simp only [List.map_cons, List.pairwise_cons] at h
    have hnone : ∀ {k}, k < k₀ → m.lookup k = none := by
      intro k hk
      rw [List.lookup_eq_none_iff]
      intro p hp
      have := h.1 p.1 (List.mem_map_of_mem hp)
      simpa using (hk.trans this).ne
    simp only [upsertSorted]
    split_ifs with h1 h2 h3 h4 h5
    · simp [lookup_cons_ite, h2, h1.ne, hnone h1]
    · simp [lookup_cons_ite, h2]
    · simp [h3, h4]
    · simp [lookup_cons_ite, ← h3, h4]
    · rw [lookup_cons_ite, lookup_cons_ite, lookup_upsertSorted k f h.2, if_pos h5, if_neg h3,
        if_neg (h5 ▸ h3)]
    · rw [lookup_cons_ite, lookup_cons_ite, lookup_upsertSorted k f h.2, if_neg h5]

theorem get?_upsert (m : SortedMap K V) (k : K) (f : Option V → V) (k' : K) :
    (m.upsert k f).get? k' = if k' = k then some (f (m.get? k)) else m.get? k' :=
  lookup_upsertSorted k f m.sorted k'

@[simp] theorem get?_empty (k : K) : (empty : SortedMap K V).get? k = none := rfl

theorem mem_bindings_iff (m : SortedMap K V) (k : K) (v : V) :
    (k, v) ∈ m.bindings ↔ m.get? k = some v := by
  obtain ⟨bs, hs⟩ := m
  simp only [get?]
  induction bs with
  | nil => simp
  | cons b bs ih =>
    obtain ⟨k₀, v₀⟩ := b
    simp only [List.map_cons, List.pairwise_cons] at hs
    rw [List.mem_cons, ih hs.2, lookup_cons_ite]
    by_cases hk : k = k₀
    · subst hk
      have : ¬ bs.lookup k = some v := fun hm =>
        (hs.1 k (List.mem_map_of_mem ((ih hs.2).2 hm))).false
      simp [this, eq_comm]
    · simp [hk]

end SortedMap
