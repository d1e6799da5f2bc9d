import Mathlib.Tactic

/-!
# Programs over primitives

A program calls primitives whose outcomes it does not choose, and goes on with each. `Runs` lists
the outcomes of a whole run and how it ends: with a value, or in a primitive that never comes back.
A list of checks is a program that stops at the first outcome its check refuses (`attempts`), and
`Performs` says what such a program did. Against a world that answers the calls, a program takes
the world from one state to another (`Executes`).
-/

namespace Program

/-- A program that calls the primitives `Op` and returns an `α`. -/
inductive Prog (Op : Type) (Out : Op → Type) (α : Type) where
  | ret (a : α)
  | call (op : Op) (k : Out op → Prog Op Out α)

variable {Op : Type} {Out : Op → Type} {α β γ F : Type}

namespace Prog

def bind : Prog Op Out α → (α → Prog Op Out β) → Prog Op Out β
  | .ret a, f => f a
  | .call op k, f => .call op fun out => (k out).bind f

instance : Monad (Prog Op Out) where
  pure := .ret
  bind := bind

/-- The program that calls one primitive and returns its outcome. -/
def perform (op : Op) : Prog Op Out (Out op) := .call op .ret

@[simp] theorem pure_eq (a : α) : (pure a : Prog Op Out α) = .ret a := rfl

@[simp] theorem ret_bind (a : α) (f : α → Prog Op Out β) :
    (ret a : Prog Op Out α) >>= f = f a := rfl

@[simp] theorem call_bind (op : Op) (k : Out op → Prog Op Out α) (f : α → Prog Op Out β) :
    call op k >>= f = call op fun out => k out >>= f := rfl

@[simp] theorem perform_bind (op : Op) (f : Out op → Prog Op Out β) :
    perform op >>= f = call op f := rfl

theorem bind_assoc (p : Prog Op Out α) (f : α → Prog Op Out β) (g : β → Prog Op Out γ) :
    p >>= f >>= g = p >>= fun a => f a >>= g := by
  induction p with
  | ret a => rfl
  | call op k ih =>
    rw [call_bind, call_bind, call_bind]
    congr 1
    funext out
    exact ih out

theorem bind_ret (p : Prog Op Out α) : p >>= ret = p := by
  induction p with
  | ret a => rfl
  | call op k ih =>
    rw [call_bind]
    congr 1
    funext out
    exact ih out

end Prog

/-! ## Runs -/

variable (Out) in
/-- One call that came back. -/
abbrev Event := (op : Op) × Out op

variable (Op α) in
/-- How a run ends: with a value, or in a call that never comes back. -/
inductive Ending where
  | returned (a : α)
  | left (op : Op)

/-- The runs of a program. Only a primitive with `final` may never come back. -/
inductive Runs (final : Op → Prop) : Prog Op Out α → List (Event Out) → Ending Op α → Prop
  | ret (a : α) : Runs final (.ret a) [] (.returned a)
  | call (op : Op) (k : Out op → Prog Op Out α) (out : Out op) {t : List (Event Out)}
      {e : Ending Op α} : Runs final (k out) t e → Runs final (.call op k) (⟨op, out⟩ :: t) e
  | left (op : Op) (k : Out op → Prog Op Out α) : final op → Runs final (.call op k) [] (.left op)

section Runs

variable {final : Op → Prop} {t : List (Event Out)}

theorem Runs.ret_inv {a : α} {e : Ending Op α} (h : Runs final (.ret a : Prog Op Out α) t e) :
    t = [] ∧ e = .returned a := by
  cases h
  exact ⟨rfl, rfl⟩

theorem Runs.call_inv {op : Op} {k : Out op → Prog Op Out α} {e : Ending Op α}
    (h : Runs final (.call op k) t e) :
    (∃ out t', t = ⟨op, out⟩ :: t' ∧ Runs final (k out) t' e) ∨
      (t = [] ∧ e = .left op ∧ final op) := by
  cases h with
  | call _ _ out h => exact .inl ⟨out, _, rfl, h⟩
  | left _ _ h => exact .inr ⟨rfl, rfl, h⟩

/-- A run of two programs in a row is a run of the first, and one of the second if the first came
to its end. -/
theorem Runs.bind_inv {p : Prog Op Out α} {f : α → Prog Op Out β} {e : Ending Op β}
    (h : Runs final (p >>= f) t e) :
    (∃ t₁ t₂ a, t = t₁ ++ t₂ ∧ Runs final p t₁ (.returned a) ∧ Runs final (f a) t₂ e) ∨
      (∃ op, e = .left op ∧ Runs final p t (.left op)) := by
  induction p generalizing t with
  | ret a => exact .inl ⟨[], t, a, rfl, .ret a, h⟩
  | call op k ih =>
    rw [Prog.call_bind] at h
    rcases h.call_inv with ⟨out, t', rfl, h'⟩ | ⟨rfl, rfl, hfinal⟩
    · rcases ih out h' with ⟨t₁, t₂, a, rfl, h₁, h₂⟩ | ⟨op', rfl, h₁⟩
      · exact .inl ⟨⟨op, out⟩ :: t₁, t₂, a, rfl, .call op k out h₁, h₂⟩
      · exact .inr ⟨op', rfl, .call op k out h₁⟩
    · exact .inr ⟨op, rfl, .left op k hfinal⟩

/-- A run of two steps in a row that succeeds is a run of each that does. -/
theorem Runs.except_bind_inv {E : Type} {x : ExceptT E (Prog Op Out) α}
    {f : α → ExceptT E (Prog Op Out) β} {b : β}
    (h : Runs final (x >>= f : ExceptT E (Prog Op Out) β) t (.returned (.ok b))) :
    ∃ t₁ t₂ a, t = t₁ ++ t₂ ∧ Runs final x t₁ (.returned (.ok a)) ∧
      Runs final (f a) t₂ (.returned (.ok b)) := by
  have hbind : Runs final ((x : Prog Op Out (Except E α)) >>= ExceptT.bindCont f) t
      (.returned (.ok b)) := h
  rcases hbind.bind_inv with ⟨t₁, t₂, e | a, rfl, h₁, h₂⟩ | ⟨op, heq, -⟩
  · cases h₂.ret_inv.2
  · exact ⟨t₁, t₂, a, rfl, h₁, h₂⟩
  · cases heq

theorem Runs.perform (op : Op) (out : Out op) :
    Runs final (Prog.perform op) [⟨op, out⟩] (.returned out) := .call op _ out (.ret out)

theorem Runs.bind {p : Prog Op Out α} {f : α → Prog Op Out β} {t' : List (Event Out)} {a : α}
    {e : Ending Op β} (h : Runs final p t (.returned a)) (h' : Runs final (f a) t' e) :
    Runs final (p >>= f) (t ++ t') e := by
  induction p generalizing t with
  | ret a' =>
    rcases h.ret_inv with ⟨rfl, heq⟩
    obtain rfl := Ending.returned.inj heq
    exact h'
  | call op k ih =>
    rcases h.call_inv with ⟨out, t, rfl, hk⟩ | ⟨-, heq, -⟩
    · exact .call op _ out (ih out hk)
    · cases heq

end Runs

/-! ## Checks -/

variable (Out F) in
/-- A call with the failure, if any, that its outcome is; or a failure without a call. -/
inductive Check where
  | call (op : Op) (judge : Out op → Option F)
  | refuse (f : F)

/-- The checks in their order, up to the first that fails. -/
def attempts : List (Check Out F) → Prog Op Out (Option F)
  | [] => .ret none
  | .refuse f :: _ => .ret (some f)
  | .call op judge :: rest =>
    .call op fun out =>
      match judge out with
      | some f => .ret (some f)
      | none => attempts rest

/-- What the checks did: the calls that were made, and the failure that stopped them. -/
inductive Performs : List (Check Out F) → List (Event Out) → Option F → Prop
  | nil : Performs [] [] none
  | refused (f : F) (rest : List (Check Out F)) : Performs (.refuse f :: rest) [] (some f)
  | failed {op : Op} {judge : Out op → Option F} {out : Out op} {f : F}
      (rest : List (Check Out F)) :
      judge out = some f → Performs (.call op judge :: rest) [⟨op, out⟩] (some f)
  | passed {op : Op} {judge : Out op → Option F} {out : Out op} {rest : List (Check Out F)}
      {t : List (Event Out)} {r : Option F} :
      judge out = none → Performs rest t r →
      Performs (.call op judge :: rest) (⟨op, out⟩ :: t) r

section Checks

variable {final : Op → Prop} {checks rest : List (Check Out F)} {t : List (Event Out)}
  {r : Option F}

/-- When none of the primitives may stay away, the checks end with what they performed. -/
theorem Runs.performs {e : Ending Op (Option F)}
    (hback : ∀ op judge, Check.call op judge ∈ checks → ¬ final op)
    (h : Runs final (attempts checks) t e) : ∃ r, e = .returned r ∧ Performs checks t r := by
  induction checks generalizing t with
  | nil =>
    rcases h.ret_inv with ⟨rfl, rfl⟩
    exact ⟨none, rfl, .nil⟩
  | cons check rest ih =>
    rcases check with ⟨op, judge⟩ | f
    · rcases h.call_inv with ⟨out, t', rfl, h'⟩ | ⟨-, -, hfinal⟩
      · cases hjudge : judge out with
        | some f =>
          rw [hjudge] at h'
          rcases h'.ret_inv with ⟨rfl, rfl⟩
          exact ⟨some f, rfl, .failed rest hjudge⟩
        | none =>
          rw [hjudge] at h'
          obtain ⟨r, rfl, hr⟩ := ih (fun o j hmem => hback o j (List.mem_cons_of_mem _ hmem)) h'
          exact ⟨r, rfl, .passed hjudge hr⟩
      · exact absurd hfinal (hback op judge (List.mem_cons_self ..))
    · rcases h.ret_inv with ⟨rfl, rfl⟩
      exact ⟨some f, rfl, .refused f rest⟩

theorem Performs.runs (h : Performs checks t r) : Runs final (attempts checks) t (.returned r) := by
  induction h with
  | nil => exact .ret none
  | refused f rest => exact .ret (some f)
  | failed rest hjudge =>
    refine .call _ _ _ ?_
    rw [hjudge]
    exact .ret _
  | passed hjudge _ ih =>
    refine .call _ _ _ ?_
    rw [hjudge]
    exact ih

/-- Checks in two parts: the second is reached when the first has passed. -/
theorem attempts_append (checks rest : List (Check Out F)) :
    attempts (checks ++ rest) = attempts checks >>= fun r =>
      match r with
      | some f => .ret (some f)
      | none => attempts rest := by
  induction checks with
  | nil => rfl
  | cons check checks ih =>
    rcases check with ⟨op, judge⟩ | f
    · simp only [List.cons_append, attempts, Prog.call_bind]
      congr 1
      funext out
      cases judge out with
      | some f => rfl
      | none => exact ih
    · rfl

theorem Performs.append_inv (h : Performs (checks ++ rest) t r) :
    (∃ f, r = some f ∧ Performs checks t r) ∨
      (∃ t₁ t₂, t = t₁ ++ t₂ ∧ Performs checks t₁ none ∧ Performs rest t₂ r) := by
  induction checks generalizing t with
  | nil => exact .inr ⟨[], t, rfl, .nil, h⟩
  | cons check checks ih =>
    cases h with
    | refused f => exact .inl ⟨f, rfl, .refused f checks⟩
    | failed _ hjudge => exact .inl ⟨_, rfl, .failed checks hjudge⟩
    | passed hjudge h =>
      rcases ih h with ⟨f, rfl, h'⟩ | ⟨t₁, t₂, rfl, h₁, h₂⟩
      · exact .inl ⟨f, rfl, .passed hjudge h'⟩
      · exact .inr ⟨_ :: t₁, t₂, rfl, .passed hjudge h₁, h₂⟩

/-- Every call that was made is one of the checks'. -/
theorem Performs.mem_calls (h : Performs checks t r) {op : Op} {out : Out op}
    (hmem : (⟨op, out⟩ : Event Out) ∈ t) : ∃ judge, Check.call op judge ∈ checks := by
  induction h with
  | nil => simp at hmem
  | refused => simp at hmem
  | failed rest hjudge =>
    rw [List.mem_singleton] at hmem
    cases hmem
    exact ⟨_, List.mem_cons_self ..⟩
  | passed hjudge h ih =>
    rcases List.mem_cons.1 hmem with heq | hmem
    · cases heq
      exact ⟨_, List.mem_cons_self ..⟩
    · obtain ⟨judge, hmem⟩ := ih hmem
      exact ⟨judge, List.mem_cons_of_mem _ hmem⟩

/-- When all the checks have passed, each of their calls has been made and has passed. -/
theorem Performs.passed_of_mem (h : Performs checks t none) {op : Op} {judge : Out op → Option F}
    (hmem : Check.call op judge ∈ checks) : ∃ out, ⟨op, out⟩ ∈ t ∧ judge out = none := by
  generalize hr : (none : Option F) = r at h
  induction h with
  | nil => simp at hmem
  | refused => cases hr
  | failed => cases hr
  | passed hjudge h ih =>
    rcases List.mem_cons.1 hmem with heq | hmem
    · cases heq
      exact ⟨_, List.mem_cons_self .., hjudge.trans hr⟩
    · obtain ⟨out, hout, hnone⟩ := ih hmem hr
      exact ⟨out, List.mem_cons_of_mem _ hout, hnone⟩

/-- A refusal is never passed. -/
theorem Performs.refuse_not_mem (h : Performs checks t none) (f : F) :
    Check.refuse f ∉ checks := by
  intro hmem
  generalize hr : (none : Option F) = r at h
  induction h with
  | nil => simp at hmem
  | refused => cases hr
  | failed => cases hr
  | passed hjudge h ih =>
    rcases List.mem_cons.1 hmem with heq | hmem
    · cases heq
    · exact ih hmem hr

/-- A failure is one of the checks'. -/
theorem Performs.failure_mem {f : F} (h : Performs checks t (some f)) :
    .refuse f ∈ checks ∨
      ∃ op judge out, Check.call op judge ∈ checks ∧ judge out = some f := by
  generalize hr : some f = r at h
  induction h with
  | nil => cases hr
  | refused f' rest =>
    cases hr
    exact .inl (List.mem_cons_self ..)
  | failed rest hjudge =>
    cases hr
    exact .inr ⟨_, _, _, List.mem_cons_self .., hjudge⟩
  | passed hjudge h ih =>
    rcases ih hr with hmem | ⟨op, judge, out, hmem, hout⟩
    · exact .inl (List.mem_cons_of_mem _ hmem)
    · exact .inr ⟨op, judge, out, List.mem_cons_of_mem _ hmem, hout⟩

/-- What the checks do is determined by the outcomes. -/
theorem Performs.unique {t₁ t₂ s₁ s₂ : List (Event Out)} {r₁ r₂ : Option F}
    (h₁ : Performs checks t₁ r₁) (h₂ : Performs checks t₂ r₂) (h : t₁ ++ s₁ = t₂ ++ s₂) :
    t₁ = t₂ ∧ r₁ = r₂ := by
  induction h₁ generalizing t₂ with
  | nil =>
    cases h₂
    exact ⟨rfl, rfl⟩
  | refused f rest =>
    cases h₂
    exact ⟨rfl, rfl⟩
  | failed rest hjudge =>
    cases h₂ with
    | failed _ hjudge' =>
      cases h
      exact ⟨rfl, hjudge.symm.trans hjudge'⟩
    | passed hjudge' h₂ =>
      cases h
      cases hjudge.symm.trans hjudge'
  | passed hjudge h₁ ih =>
    cases h₂ with
    | failed _ hjudge' =>
      cases h
      cases hjudge.symm.trans hjudge'
    | passed hjudge' h₂ =>
      simp only [List.cons_append, List.cons.injEq] at h
      obtain ⟨heq, h⟩ := h
      cases heq
      obtain ⟨rfl, rfl⟩ := ih h₂ h
      exact ⟨rfl, rfl⟩

end Checks

/-! ## Calls -/

namespace Prog

/-- The program may return `b`. -/
def Returns (b : α) : Prog Op Out α → Prop
  | .ret a => a = b
  | .call _ k => ∃ out, (k out).Returns b

/-- Every primitive that the program may come to satisfies `Q`. -/
def Always (Q : Op → Prop) : Prog Op Out α → Prop
  | .ret _ => True
  | .call op k => Q op ∧ ∀ out, (k out).Always Q

variable {Q : Op → Prop}

@[simp] theorem returns_ret {a b : α} : (ret a : Prog Op Out α).Returns b ↔ a = b := Iff.rfl

@[simp] theorem returns_call {b : α} {op : Op} {k : Out op → Prog Op Out α} :
    (call op k).Returns b ↔ ∃ out, (k out).Returns b := Iff.rfl

@[simp] theorem always_ret (a : α) : (ret a : Prog Op Out α).Always Q ↔ True := Iff.rfl

@[simp] theorem always_call {op : Op} {k : Out op → Prog Op Out α} :
    (call op k).Always Q ↔ Q op ∧ ∀ out, (k out).Always Q := Iff.rfl

theorem returns_bind {p : Prog Op Out α} {f : α → Prog Op Out β} {b : β} :
    (p >>= f).Returns b ↔ ∃ a, p.Returns a ∧ (f a).Returns b := by
  induction p with
  | ret a => exact ⟨fun h => ⟨a, rfl, h⟩, fun ⟨_, ha, h⟩ => ha ▸ h⟩
  | call op k ih =>
    rw [call_bind, returns_call]
    constructor
    · rintro ⟨out, h⟩
      obtain ⟨a, ha, hb⟩ := (ih out).1 h
      exact ⟨a, ⟨out, ha⟩, hb⟩
    · rintro ⟨a, ⟨out, ha⟩, hb⟩
      exact ⟨out, (ih out).2 ⟨a, ha, hb⟩⟩

theorem always_bind {p : Prog Op Out α} {f : α → Prog Op Out β} :
    (p >>= f).Always Q ↔ p.Always Q ∧ ∀ a, p.Returns a → (f a).Always Q := by
  induction p with
  | ret a => exact ⟨fun h => ⟨trivial, fun _ ha => ha ▸ h⟩, fun h => h.2 a rfl⟩
  | call op k ih =>
    rw [call_bind, always_call, always_call]
    constructor
    · rintro ⟨hop, h⟩
      exact ⟨⟨hop, fun out => ((ih out).1 (h out)).1⟩,
        fun a ⟨out, ha⟩ => ((ih out).1 (h out)).2 a ha⟩
    · rintro ⟨⟨hop, h⟩, hf⟩
      exact ⟨hop, fun out => (ih out).2 ⟨h out, fun a ha => hf a ⟨out, ha⟩⟩⟩

theorem always_mono {Q' : Op → Prop} (h : ∀ op, Q op → Q' op) {p : Prog Op Out α}
    (hp : p.Always Q) : p.Always Q' := by
  induction p with
  | ret => trivial
  | call op k ih => exact ⟨h op hp.1, fun out => ih out (hp.2 out)⟩

theorem always_of_runs {final : Op → Prop} {p : Prog Op Out α} {t : List (Event Out)}
    {e : Ending Op α} (h : Runs final p t e) (hp : p.Always Q) : ∀ event ∈ t, Q event.1 := by
  induction h with
  | ret => nofun
  | call op k out _ ih => exact List.forall_mem_cons.2 ⟨hp.1, ih (hp.2 out)⟩
  | left => nofun

/-- When every primitive can come back, a program that may come to a call makes it in some run. -/
theorem always_iff_runs {final : Op → Prop} (hout : ∀ op, Nonempty (Out op))
    {p : Prog Op Out α} :
    p.Always Q ↔ ∀ t e, Runs final p t e → ∀ event ∈ t, Q event.1 := by
  have hruns : ∀ p : Prog Op Out α, ∃ t e, Runs final p t e := by
    intro p
    induction p with
    | ret a => exact ⟨[], _, .ret a⟩
    | call op k ih =>
      obtain ⟨out⟩ := hout op
      obtain ⟨t, e, h⟩ := ih out
      exact ⟨_, e, .call op k out h⟩
  refine ⟨fun hp t e h => always_of_runs h hp, fun h => ?_⟩
  induction p with
  | ret a => trivial
  | call op k ih =>
    constructor
    · obtain ⟨out⟩ := hout op
      obtain ⟨t, e, ht⟩ := hruns (k out)
      exact h _ e (.call op k out ht) ⟨op, out⟩ (List.mem_cons_self ..)
    · intro out
      exact ih out fun t e ht event hmem =>
        h _ e (.call op k out ht) event (List.mem_cons_of_mem _ hmem)

/-- The program makes the calls, and `q` is what it has left to do. -/
inductive After : Prog Op Out α → List (Event Out) → Prog Op Out α → Prop
  | nil (p : Prog Op Out α) : After p [] p
  | cons {op : Op} {k : Out op → Prog Op Out α} {out : Out op} {t : List (Event Out)}
      {q : Prog Op Out α} : After (k out) t q → After (.call op k) (⟨op, out⟩ :: t) q

theorem After.cons_inv {op : Op} {k : Out op → Prog Op Out α} {out : Out op}
    {t : List (Event Out)} {q : Prog Op Out α} (h : After (.call op k) (⟨op, out⟩ :: t) q) :
    After (k out) t q := by
  cases h with
  | cons h => exact h

theorem After.nil_inv {p q : Prog Op Out α} (h : After p [] q) : q = p := by
  cases h
  rfl

/-- As long as the answers are what `ok` allows, the program makes at most so many calls, each of
them with `Q`, and returns a value with `P`. -/
def Within (Q : Op → Prop) (ok : (op : Op) → Out op → Prop) (P : α → Prop) :
    ℕ → Prog Op Out α → Prop
  | _, .ret a => P a
  | 0, .call _ _ => False
  | n + 1, .call op k => Q op ∧ ∀ out, ok op out → (k out).Within Q ok P n

section Within

variable {ok : (op : Op) → Out op → Prop} {P : α → Prop}

theorem within_ret {n : ℕ} {a : α} : (ret a : Prog Op Out α).Within Q ok P n ↔ P a := by
  cases n <;> exact Iff.rfl

theorem Within.call_inv {n : ℕ} {op : Op} {k : Out op → Prog Op Out α}
    (h : (call op k).Within Q ok P n) :
    ∃ m, n = m + 1 ∧ Q op ∧ ∀ out, ok op out → (k out).Within Q ok P m := by
  rcases n with _ | m
  · exact h.elim
  · exact ⟨m, rfl, h⟩

end Within

/-! A step that fails stops the program. -/

variable {E : Type}

theorem lift_bind (x : Prog Op Out α) (f : α → ExceptT E (Prog Op Out) β) :
    (ExceptT.lift x >>= f : ExceptT E (Prog Op Out) β) = Prog.bind x f :=
  bind_assoc x (fun a => (ret (Except.ok a) : Prog Op Out (Except E α))) (ExceptT.bindCont f)

theorem except_bind_assoc (x : ExceptT E (Prog Op Out) α) (f : α → ExceptT E (Prog Op Out) β)
    (g : β → ExceptT E (Prog Op Out) γ) : x >>= f >>= g = x >>= fun a => f a >>= g := by
  have h := bind_assoc (p := x) (ExceptT.bindCont f) (ExceptT.bindCont g)
  refine h.trans (congrArg (bind x) ?_)
  funext r
  rcases r with e | a <;> rfl

theorem returns_ok_bind {x : ExceptT E (Prog Op Out) α} {f : α → ExceptT E (Prog Op Out) β}
    {b : β} :
    Returns (.ok b) (x >>= f : ExceptT E (Prog Op Out) β) ↔
      ∃ a, Returns (.ok a) x ∧ Returns (.ok b) (f a) := by
  have h := returns_bind (p := x) (f := ExceptT.bindCont f) (b := .ok b)
  refine h.trans ⟨?_, fun ⟨a, ha, hb⟩ => ⟨.ok a, ha, hb⟩⟩
  rintro ⟨e | a, ha, hb⟩
  · cases hb
  · exact ⟨a, ha, hb⟩

theorem always_except_bind {x : ExceptT E (Prog Op Out) α}
    {f : α → ExceptT E (Prog Op Out) β} :
    Always Q (x >>= f : ExceptT E (Prog Op Out) β) ↔
      Always Q x ∧ ∀ a, Returns (.ok a) x → Always Q (f a) := by
  have h := always_bind (Q := Q) (p := x) (f := ExceptT.bindCont f)
  refine h.trans ⟨fun ⟨hx, hf⟩ => ⟨hx, fun a ha => hf _ ha⟩, fun ⟨hx, hf⟩ => ⟨hx, ?_⟩⟩
  rintro (e | a) ha
  · trivial
  · exact hf a ha

end Prog

/-! ## Executions -/

section Executions

variable {W : Type} (answers : W → (op : Op) → Out op → W → Prop)

/-- The program takes the world from one state to another, and returns. -/
inductive Executes : Prog Op Out α → W → α → W → Prop
  | ret (a : α) (w : W) : Executes (.ret a) w a w
  | call {op : Op} {k : Out op → Prog Op Out α} {out : Out op} {w w' w'' : W} {a : α} :
      answers w op out w' → Executes (k out) w' a w'' → Executes (.call op k) w a w''

variable {answers} {w w'' : W}

@[simp] theorem executes_ret {a b : α} :
    Executes answers (.ret a : Prog Op Out α) w b w'' ↔ b = a ∧ w'' = w := by
  constructor
  · intro h
    cases h
    exact ⟨rfl, rfl⟩
  · rintro ⟨rfl, rfl⟩
    exact .ret b w''

theorem executes_call {op : Op} {k : Out op → Prog Op Out α} {a : α} :
    Executes answers (.call op k) w a w'' ↔
      ∃ out w', answers w op out w' ∧ Executes answers (k out) w' a w'' := by
  constructor
  · intro h
    cases h with
    | call hop h => exact ⟨_, _, hop, h⟩
  · rintro ⟨out, w', hop, h⟩
    exact .call hop h

theorem executes_bind {p : Prog Op Out α} {f : α → Prog Op Out β} {b : β} :
    Executes answers (p >>= f) w b w'' ↔
      ∃ a w', Executes answers p w a w' ∧ Executes answers (f a) w' b w'' := by
  constructor
  · intro h
    induction p generalizing w with
    | ret a => exact ⟨a, w, .ret a w, h⟩
    | call op k ih =>
      obtain ⟨out, w', hop, h⟩ := executes_call.1 h
      obtain ⟨a, w₁, hp, hf⟩ := ih out h
      exact ⟨a, w₁, .call hop hp, hf⟩
  · rintro ⟨a, w', hp, hf⟩
    induction hp with
    | ret => exact hf
    | call hop _ ih => exact .call hop (ih hf)

/-- A step that fails stops the program. -/
theorem executes_except_bind {E : Type} {x : ExceptT E (Prog Op Out) α}
    {f : α → ExceptT E (Prog Op Out) β} {r : Except E β} :
    Executes answers (x >>= f : ExceptT E (Prog Op Out) β) w r w'' ↔
      (∃ e, r = .error e ∧ Executes answers (x : Prog Op Out (Except E α)) w (.error e) w'') ∨
        ∃ a w', Executes answers (x : Prog Op Out (Except E α)) w (.ok a) w' ∧
          Executes answers (f a : Prog Op Out (Except E β)) w' r w'' := by
  refine (executes_bind (p := x) (f := ExceptT.bindCont f)).trans ⟨?_, ?_⟩
  · rintro ⟨e | a, w', hx, hf⟩
    · rcases executes_ret.1 hf with ⟨rfl, rfl⟩
      exact .inl ⟨e, rfl, hx⟩
    · exact .inr ⟨a, w', hx, hf⟩
  · rintro (⟨e, rfl, hx⟩ | ⟨a, w', hx, hf⟩)
    · exact ⟨.error e, w'', hx, .ret _ _⟩
    · exact ⟨.ok a, w', hx, hf⟩

variable (answers) in
/-- The world gives the answers of a run, and goes from one state to another. -/
inductive Answered : W → List (Event Out) → W → Prop
  | nil (w : W) : Answered w [] w
  | cons {op : Op} {out : Out op} {t : List (Event Out)} {w w' w'' : W} :
      answers w op out w' → Answered w' t w'' → Answered w (⟨op, out⟩ :: t) w''

theorem Answered.cons_inv {op : Op} {out : Out op} {t : List (Event Out)}
    (h : Answered answers w (⟨op, out⟩ :: t) w'') :
    ∃ w', answers w op out w' ∧ Answered answers w' t w'' := by
  cases h with
  | cons hop h => exact ⟨_, hop, h⟩

theorem Answered.nil_inv (h : Answered answers w ([] : List (Event Out)) w'') : w'' = w := by
  cases h
  rfl

theorem Answered.append_inv {t t' : List (Event Out)} (h : Answered answers w (t ++ t') w'') :
    ∃ w', Answered answers w t w' ∧ Answered answers w' t' w'' := by
  induction t generalizing w with
  | nil => exact ⟨w, .nil w, h⟩
  | cons event t ih =>
    obtain ⟨w₁, hop, hrest⟩ := h.cons_inv
    obtain ⟨w', ht, ht'⟩ := ih hrest
    exact ⟨w', .cons hop ht, ht'⟩

/-- What every answer of a run keeps, the run keeps. -/
theorem Answered.keeps {t : List (Event Out)} (h : Answered answers w t w'') {Inv : W → Prop}
    (hstep : ∀ event ∈ t, ∀ w w', Inv w → answers w event.1 event.2 w' → Inv w') (hw : Inv w) :
    Inv w'' := by
  induction h with
  | nil => exact hw
  | cons hop _ ih =>
    obtain ⟨hfirst, hrest⟩ := List.forall_mem_cons.1 hstep
    exact ih hrest (hfirst _ _ hw hop)

end Executions

/-! ## Calls in a row -/

section CallAll

variable {E W : Type}

/-- The calls one behind the other, up to the first that fails. -/
def callAll : List Op → ExceptT E (Prog Op fun _ => Except E Unit) Unit
  | [] => pure ()
  | op :: ops => do
    (Prog.perform op : Prog Op (fun _ => Except E Unit) (Except E Unit))
    callAll ops

theorem callAll_append (ops ops' : List Op) :
    (callAll (ops ++ ops') : ExceptT E (Prog Op fun _ => Except E Unit) Unit) =
      callAll ops >>= fun _ => callAll ops' := by
  induction ops with
  | nil => rfl
  | cons op ops ih =>
    rw [List.cons_append, callAll, ih]
    exact (Prog.except_bind_assoc _ _ _).symm

theorem callAll_singleton (op : Op) :
    (callAll [op] : ExceptT E (Prog Op fun _ => Except E Unit) Unit) =
      (Prog.perform op : Prog Op (fun _ => Except E Unit) (Except E Unit)) := by
  refine congrArg (Prog.call op) ?_
  funext out
  rcases out with e | ⟨⟩ <;> rfl

/-- The first call that fails is the last, and its failure is returned. -/
theorem callAll_stops {final : Op → Prop} {ops : List Op}
    {pre suf : List (Event fun _ => Except E Unit)} {op : Op} {e : E} {r : Except E Unit}
    (h : Runs final (callAll ops) (pre ++ ⟨op, .error e⟩ :: suf) (.returned r)) :
    suf = [] ∧ r = .error e := by
  induction ops generalizing pre with
  | nil =>
    have hnil := (Runs.ret_inv h).1
    simp at hnil
  | cons op' ops ih =>
    rcases Runs.call_inv h with ⟨out, t', ht, hk⟩ | ⟨-, heq, -⟩
    · rcases pre with _ | ⟨event, pre⟩
      · cases ht
        obtain ⟨rfl, heq⟩ := Runs.ret_inv hk
        exact ⟨rfl, Ending.returned.inj heq⟩
      · obtain ⟨rfl, rfl⟩ := List.cons.inj ht
        rcases out with e' | ⟨⟩
        · have hnil := (Runs.ret_inv hk).1
          simp at hnil
        · exact ih hk
    · cases heq

theorem executes_callAll_nil {answers : W → (op : Op) → Except E Unit → W → Prop} {w w'' : W} :
    Executes answers (callAll []) w (.ok ()) w'' ↔ w'' = w :=
  (executes_ret (a := Except.ok ())).trans (and_iff_right rfl)

theorem executes_callAll_cons {answers : W → (op : Op) → Except E Unit → W → Prop} {op : Op}
    {ops : List Op} {w w'' : W} :
    Executes answers (callAll (op :: ops)) w (.ok ()) w'' ↔
      ∃ w', answers w op (.ok ()) w' ∧ Executes answers (callAll ops) w' (.ok ()) w'' := by
  refine executes_call.trans ⟨?_, ?_⟩
  · rintro ⟨e | ⟨⟩, w', hop, h⟩
    · cases (executes_ret.1 h).1
    · exact ⟨w', hop, h⟩
  · rintro ⟨w', hop, h⟩
    exact ⟨.ok (), w', hop, h⟩

end CallAll

end Program
