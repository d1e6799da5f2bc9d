import Pnut.Lib.Program

/-!
# Programs that loop

A loop is a program for each of its points, which goes on at a point or returns. `LoopRuns` lists
the outcomes of its finite runs. Against a world that answers the calls, and moves between them, a
loop takes steps; `Ends` says that every execution comes to a return. A rank that every step lowers
shows that it does, a trap of configurations that step into each other shows that it does not.
-/

namespace Program

variable {Op : Type} {Out : Op → Type} {Point α β : Type}

variable (Op Out Point α) in
/-- What the loop does at each of its points: it goes on at a point, or returns. -/
abbrev Loop := Point → Prog Op Out (Point ⊕ α)

/-! ## Runs -/

/-- The finite runs of a loop, from a program of it on. -/
inductive LoopRuns (final : Op → Prop) (body : Loop Op Out Point α) :
    Prog Op Out (Point ⊕ α) → List (Event Out) → Ending Op α → Prop
  | returned {p : Prog Op Out (Point ⊕ α)} {t : List (Event Out)} {a : α} :
      Runs final p t (.returned (.inr a)) → LoopRuns final body p t (.returned a)
  | left {p : Prog Op Out (Point ⊕ α)} {t : List (Event Out)} {op : Op} :
      Runs final p t (.left op) → LoopRuns final body p t (.left op)
  | again {p : Prog Op Out (Point ⊕ α)} {t₁ t₂ : List (Event Out)} {pt : Point}
      {e : Ending Op α} :
      Runs final p t₁ (.returned (.inl pt)) → LoopRuns final body (body pt) t₂ e →
      LoopRuns final body p (t₁ ++ t₂) e

theorem LoopRuns.always {final : Op → Prop} {body : Loop Op Out Point α} {Q : Op → Prop}
    (hbody : ∀ pt, (body pt).Always Q) {p : Prog Op Out (Point ⊕ α)} {t : List (Event Out)}
    {e : Ending Op α} (h : LoopRuns final body p t e) (hp : p.Always Q) :
    ∀ event ∈ t, Q event.1 := by
  induction h with
  | returned h => exact Prog.always_of_runs h hp
  | left h => exact Prog.always_of_runs h hp
  | again h _ ih => exact List.forall_mem_append.2 ⟨Prog.always_of_runs h hp, ih (hbody _)⟩

/-! ## A program behind a loop -/

/-- What follows a stretch of the loop: the loop goes on, or the program takes what it returned. -/
def Loop.follow (f : α → Prog Op Out β) : Point ⊕ α → Prog Op Out (Point ⊕ β)
  | .inl pt => .ret (.inl pt)
  | .inr a => f a >>= fun b => .ret (.inr b)

/-- The loop, and a program that takes what it returns. -/
def Loop.andThen (body : Loop Op Out Point α) (f : α → Prog Op Out β) : Loop Op Out Point β :=
  fun pt => body pt >>= Loop.follow f

section AndThen

variable {final : Op → Prop} {body : Loop Op Out Point α} {f : α → Prog Op Out β}
  {p : Prog Op Out (Point ⊕ α)} {t : List (Event Out)} {b : β}

theorem LoopRuns.andThen_inv (h : LoopRuns final (body.andThen f) (p >>= Loop.follow f) t
    (.returned b)) :
    ∃ t₁ t₂ a, t = t₁ ++ t₂ ∧ LoopRuns final body p t₁ (.returned a) ∧
      Runs final (f a) t₂ (.returned b) := by
  generalize hq : p >>= Loop.follow f = q at h
  generalize he : Ending.returned b = e at h
  induction h generalizing p with
  | returned h =>
    subst hq
    obtain rfl := Ending.returned.inj he
    rcases h.bind_inv with ⟨t₁, t₂, pt | a, rfl, hp, h⟩ | ⟨op, he', -⟩
    · cases h.ret_inv.2
    · rcases Runs.bind_inv h with ⟨t₂, t₃, b', rfl, hf, h⟩ | ⟨op, he', -⟩
      · obtain ⟨rfl, heq⟩ := h.ret_inv
        cases heq
        exact ⟨t₁, t₂, a, by rw [List.append_nil], .returned hp, hf⟩
      · cases he'
    · cases he'
  | left => cases he
  | again h _ ih =>
    subst hq
    rcases h.bind_inv with ⟨t₁, t₂, pt | a, rfl, hp, h⟩ | ⟨op, he', -⟩
    · obtain ⟨rfl, heq⟩ := h.ret_inv
      cases heq
      obtain ⟨t₃, t₄, a, rfl, hloop, hf⟩ := ih rfl he
      exact ⟨t₁ ++ t₃, t₄, a, by simp only [List.append_assoc, List.append_nil],
        .again hp hloop, hf⟩
    · rcases Runs.bind_inv h with ⟨_, _, _, -, -, h⟩ | ⟨op, he', -⟩
      · cases h.ret_inv.2
      · cases he'
    · cases he'

theorem LoopRuns.andThen {t' : List (Event Out)} {a : α} (h : LoopRuns final body p t (.returned a))
    (hf : Runs final (f a) t' (.returned b)) :
    LoopRuns final (body.andThen f) (p >>= Loop.follow f) (t ++ t') (.returned b) := by
  generalize he : Ending.returned a = e at h
  induction h with
  | returned h =>
    obtain rfl := Ending.returned.inj he
    refine .returned (h.bind ?_)
    have hret : Runs final (Loop.follow f (.inr a : Point ⊕ α)) (t' ++ []) (.returned (.inr b)) :=
      hf.bind (.ret _)
    rwa [List.append_nil] at hret
  | left => cases he
  | again h _ ih =>
    rw [List.append_assoc]
    have hpt : Runs final (_ >>= Loop.follow f) (_ ++ []) (.returned (.inl _)) := h.bind (.ret _)
    rw [List.append_nil] at hpt
    exact .again hpt (ih he)

/-- A run that returns is one of the loop, and one of the program behind it. -/
theorem loopRuns_andThen {pt : Point} :
    LoopRuns final (body.andThen f) (body.andThen f pt) t (.returned b) ↔
      ∃ t₁ t₂ a, t = t₁ ++ t₂ ∧ LoopRuns final body (body pt) t₁ (.returned a) ∧
        Runs final (f a) t₂ (.returned b) := by
  constructor
  · exact LoopRuns.andThen_inv
  · rintro ⟨t₁, t₂, a, rfl, h, hf⟩
    exact h.andThen hf

end AndThen

/-! ## Executions -/

section World

variable {W : Type} (answers : W → (op : Op) → Out op → W → Prop) (env : W → W → Prop)
  (body : Loop Op Out Point α)

/-- One step: the world moves, it answers a call, or the loop goes on at a point. -/
inductive Step : Prog Op Out (Point ⊕ α) × W → Prog Op Out (Point ⊕ α) × W → Prop
  | env {p : Prog Op Out (Point ⊕ α)} {w w' : W} : env w w' → Step (p, w) (p, w')
  | call {op : Op} {k : Out op → Prog Op Out (Point ⊕ α)} {out : Out op} {w w' : W} :
      answers w op out w' → Step (.call op k, w) (k out, w')
  | again {pt : Point} {w : W} : Step (.ret (.inl pt), w) (body pt, w)

/-- Every execution returns, with a good value. -/
inductive Ends (good : α → Prop) : Prog Op Out (Point ⊕ α) × W → Prop
  | returned {a : α} {w : W} : good a → Ends good (.ret (.inr a), w)
  | step {c : Prog Op Out (Point ⊕ α) × W} :
      (∃ c', Step answers env body c c') → (∀ c', Step answers env body c c' → Ends good c') →
      Ends good c

variable {answers env body} {good : α → Prop}

theorem Step.call_inv {op : Op} {k : Out op → Prog Op Out (Point ⊕ α)} {w : W}
    {c : Prog Op Out (Point ⊕ α) × W} (h : Step answers env body (.call op k, w) c) :
    (∃ w', env w w' ∧ c = (.call op k, w')) ∨
      (∃ out w', answers w op out w' ∧ c = (k out, w')) := by
  cases h with
  | env h => exact .inl ⟨_, h, rfl⟩
  | call h => exact .inr ⟨_, _, h, rfl⟩

theorem Step.inl_inv {pt : Point} {w : W} {c : Prog Op Out (Point ⊕ α) × W}
    (h : Step answers env body (.ret (.inl pt), w) c) :
    (∃ w', env w w' ∧ c = (.ret (.inl pt), w')) ∨ c = (body pt, w) := by
  cases h with
  | env h => exact .inl ⟨_, h, rfl⟩
  | again => exact .inr rfl

theorem Step.inr_inv {a : α} {w : W} {c : Prog Op Out (Point ⊕ α) × W}
    (h : Step answers env body (.ret (.inr a), w) c) :
    ∃ w', env w w' ∧ c = (.ret (.inr a), w') := by
  cases h with
  | env h => exact ⟨_, h, rfl⟩

/-- Executions end when no configuration of a ranked invariant is stuck, and every step leads to
one of a lower rank. -/
theorem ends_of_rank (inv : Prog Op Out (Point ⊕ α) × W → ℕ → Prop)
    (h : ∀ c n, inv c n → (∃ a w, c = (.ret (.inr a), w) ∧ good a) ∨
      ((∃ c', Step answers env body c c') ∧
        ∀ c', Step answers env body c c' → ∃ m < n, inv c' m)) {n : ℕ} :
    ∀ {c}, inv c n → Ends answers env body good c := by
  induction n using Nat.strong_induction_on with
  | _ n ih =>
    intro c hc
    rcases h c n hc with ⟨a, w, rfl, ha⟩ | ⟨hstep, hrank⟩
    · exact .returned ha
    · refine .step hstep fun c' hc' => ?_
      obtain ⟨m, hlt, hinv⟩ := hrank c' hc'
      exact ih m hlt hinv

/-- Executions do not end in a trap: none of its configurations has returned, and each has a step
to one of them. -/
theorem not_ends_of_trap (trap : Prog Op Out (Point ⊕ α) × W → Prop)
    (hret : ∀ a w, ¬ trap (.ret (.inr a), w))
    (hstep : ∀ c, trap c → ∃ c', trap c' ∧ Step answers env body c c')
    {c : Prog Op Out (Point ⊕ α) × W} (hc : trap c) : ¬ Ends answers env body good c := by
  intro h
  induction h with
  | returned => exact hret _ _ hc
  | step _ _ ih =>
    obtain ⟨c', htrap, hc'⟩ := hstep _ hc
    exact ih c' hc' htrap

end World

end Program
