import Mathlib.Tactic

/-!
# Systems of equations

A key has at most one equation, and its right-hand side refers to other keys. A key is solved from
the leaves up, so it has one value, and everything it depends on is defined and off every cycle.
A depth-first search keeps the keys it is inside of as a path; on a finite system a path without
repetition leaves room for another key.
-/

universe u v w

/-- Equations of the keys `κ` with right-hand sides `ε` for values `β`. -/
structure Equations (κ : Type u) (ε : Type v) (β : Type w) where
  rhs : κ → Option ε
  refs : ε → List κ
  eval : (κ → β) → ε → β
  eval_congr : ∀ {val val' : κ → β} {e : ε}, (∀ b ∈ refs e, val b = val' b) →
    eval val e = eval val' e

namespace Equations

open Relation (ReflTransGen TransGen)

variable {κ : Type u} {ε : Type v} {β : Type w} (sys : Equations κ ε β)

/-- The equation of `a` refers to `b`. -/
def Refers (a b : κ) : Prop := ∃ e, sys.rhs a = some e ∧ b ∈ sys.refs e

/-- The value of a key, from the values of the keys its equation refers to. -/
inductive Solved : κ → β → Prop
  | intro {a : κ} {e : ε} {val : κ → β} (h : sys.rhs a = some e)
      (hrefs : ∀ b ∈ sys.refs e, Solved b (val b)) : Solved a (sys.eval val e)

/-- Whatever the key depends on is defined, and does not depend on itself. -/
structure Grounded (a : κ) : Prop where
  defined : ∀ b, ReflTransGen sys.Refers a b → ∃ e, sys.rhs b = some e
  acyclic : ∀ b, ReflTransGen sys.Refers a b → ¬ TransGen sys.Refers b b

variable {sys} {a b : κ} {v w : β}

theorem Solved.unique (h : sys.Solved a v) : ∀ {w : β}, sys.Solved a w → v = w := by
  induction h with
  | intro h _ ih =>
    rintro _ ⟨h', hrefs'⟩
    obtain rfl := Option.some.inj (h.symm.trans h')
    exact sys.eval_congr fun b hb => ih b hb (hrefs' b hb)

open scoped Classical in
variable (sys) in
/-- The value of a key that has one. -/
noncomputable def solution [Inhabited β] (a : κ) : β :=
  if h : ∃ v, sys.Solved a v then h.choose else default

theorem Solved.solution_eq [Inhabited β] (h : sys.Solved a v) : sys.solution a = v := by
  unfold solution
  rw [dif_pos ⟨v, h⟩]
  exact (Exists.choose_spec (⟨v, h⟩ : ∃ v, sys.Solved a v)).unique h

theorem Solved.solution [Inhabited β] (h : sys.Solved a v) : sys.Solved a (sys.solution a) :=
  h.solution_eq.symm ▸ h

theorem Solved.defined (h : sys.Solved a v) : ∃ e, sys.rhs a = some e := by
  rcases h with ⟨h, -⟩
  exact ⟨_, h⟩

theorem Solved.of_refers (h : sys.Solved a v) (hab : sys.Refers a b) : ∃ w, sys.Solved b w := by
  rcases h with ⟨h, hrefs⟩
  obtain ⟨e, he, hb⟩ := hab
  obtain rfl := Option.some.inj (h.symm.trans he)
  exact ⟨_, hrefs b hb⟩

theorem Solved.of_reaches (h : sys.Solved a v) (hab : ReflTransGen sys.Refers a b) :
    ∃ w, sys.Solved b w := by
  induction hab with
  | refl => exact ⟨v, h⟩
  | tail _ hbc ih =>
    obtain ⟨w, hw⟩ := ih
    exact hw.of_refers hbc

theorem Solved.acc (h : sys.Solved a v) : Acc (fun b a => sys.Refers a b) a := by
  induction h with
  | intro h _ ih =>
    refine ⟨_, fun b hb => ?_⟩
    obtain ⟨e, he, hb⟩ := hb
    obtain rfl := Option.some.inj (h.symm.trans he)
    exact ih b hb

theorem not_transGen_of_acc (h : Acc (fun b a => sys.Refers a b) a) :
    ¬ TransGen sys.Refers a a := by
  induction h with
  | intro a _ ih =>
    intro hcycle
    obtain ⟨b, hab, hba⟩ := Relation.TransGen.head'_iff.1 hcycle
    exact ih b hab (Relation.TransGen.tail' hba hab)

/-- What is solved is grounded. -/
theorem Solved.grounded (h : sys.Solved a v) : sys.Grounded a where
  defined b hab := by
    obtain ⟨w, hw⟩ := h.of_reaches hab
    exact hw.defined
  acyclic b hab := by
    obtain ⟨w, hw⟩ := h.of_reaches hab
    exact not_transGen_of_acc hw.acc

theorem Grounded.of_refers (h : sys.Grounded a) (hab : sys.Refers a b) : sys.Grounded b where
  defined c hbc := h.defined c (.head hab hbc)
  acyclic c hbc := h.acyclic c (.head hab hbc)

/-! ## The path of a search -/

/-- The path holds distinct keys of the system, and `left` more are enough for all of them. -/
structure Room (keys : List κ) (left : ℕ) (path : List κ) : Prop where
  nodup : path.Nodup
  subset : path ⊆ keys
  length_le : keys.length ≤ left + path.length

section Room

variable {keys path : List κ} {left : ℕ}

theorem room_nil (keys : List κ) : Room keys keys.length [] := ⟨.nil, by simp, le_rfl⟩

theorem Room.pos (h : Room keys left path) (ha : a ∈ keys) (hpath : a ∉ path) : 0 < left := by
  have hsub := (List.nodup_cons.2 ⟨hpath, h.nodup⟩).subperm (List.cons_subset.2 ⟨ha, h.subset⟩)
  have := hsub.length_le
  have := h.length_le
  rw [List.length_cons] at *
  omega

theorem Room.cons (h : Room keys (left + 1) path) (ha : a ∈ keys) (hpath : a ∉ path) :
    Room keys left (a :: path) where
  nodup := List.nodup_cons.2 ⟨hpath, h.nodup⟩
  subset := List.cons_subset.2 ⟨ha, h.subset⟩
  length_le := by
    have := h.length_le
    rw [List.length_cons]
    omega

/-- Each key of the path leads to the key the search is at. -/
def Leads (sys : Equations κ ε β) (path : List κ) (a : κ) : Prop :=
  ∀ p ∈ path, TransGen sys.Refers p a

theorem Grounded.notMem (h : sys.Grounded a) (hpath : sys.Leads path a) : a ∉ path :=
  fun hmem => h.acyclic a .refl (hpath a hmem)

theorem Leads.cons (h : sys.Leads path a) (hab : sys.Refers a b) : sys.Leads (a :: path) b := by
  intro p hp
  rcases List.mem_cons.1 hp with rfl | hp
  · exact .single hab
  · exact (h p hp).tail hab

end Room

end Equations
