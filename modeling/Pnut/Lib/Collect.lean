import Mathlib.Tactic

/-!
# Steps that may fail

What comes before a result: each step of a sequence succeeded, and so did each element of a list
that is collected whole.
-/

namespace Collect

variable {ε α β γ : Type}

theorem exists_of_bind {x : Except ε α} {f : α → Except ε β} {b : β}
    (h : (x >>= f) = .ok b) : ∃ a, x = .ok a ∧ f a = .ok b := by
  rcases x with e | a
  · cases h
  · exact ⟨a, rfl, h⟩

/-- What a step keeps of its argument, the list that is collected keeps of the arguments. -/
theorem map_of_mapM {f : α → Except ε β} {before : α → γ} {after : β → γ}
    (hf : ∀ a b, f a = .ok b → after b = before a) :
    ∀ {as : List α} {bs : List β}, as.mapM f = .ok bs → bs.map after = as.map before
  | [], bs, h => by
    obtain rfl := Except.ok.inj h
    rfl
  | a :: as, bs, h => by
    rw [List.mapM_cons] at h
    obtain ⟨b, hb, h⟩ := exists_of_bind h
    obtain ⟨bs', hbs, h⟩ := exists_of_bind h
    obtain rfl := Except.ok.inj h
    rw [List.map_cons, List.map_cons, hf a b hb, map_of_mapM hf hbs]

theorem exists_of_mapM_some {f : α → Except ε β} {a : α} {r : Option β}
    (h : (some a).mapM f = .ok r) : ∃ b, f a = .ok b ∧ r = some b := by
  rw [Option.mapM_some] at h
  cases ha : f a with
  | error e => simp [ha, Functor.map, Except.map] at h
  | ok b =>
    rw [ha] at h
    exact ⟨b, rfl, (Except.ok.inj h).symm⟩

end Collect
