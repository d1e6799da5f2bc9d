import Pnut.Lib.Loop

/-!
# Disciplined programs

A discipline says which calls a world allows, and what each may come back with and leave behind. A
program obeys it when, whatever comes back, its next call is allowed and what it returns satisfies a
postcondition. The rules follow the program: a call, two programs in a row, a step that may fail, a
loop with an invariant at its points. Obedience is kept by every call that comes back, so it holds
of what is left of a program at every moment of a run.
-/

namespace Program

variable {Op : Type} {Out : Op → Type} {Point α β W W' : Type}

variable (Op Out W) in
/-- The calls that a world allows, and how it answers them. -/
structure Discipline where
  allowed : W → Op → Prop
  answers : W → (op : Op) → Out op → W → Prop

namespace Prog

/-- As long as the answers are the world's, every call is allowed, and what is returned satisfies
the postcondition. -/
def Obeys (D : Discipline Op Out W) (Q : W → α → Prop) : W → Prog Op Out α → Prop
  | w, .ret a => Q w a
  | w, .call op k => D.allowed w op ∧ ∀ out w', D.answers w op out w' → (k out).Obeys D Q w'

variable {D : Discipline Op Out W} {Q Q' : W → α → Prop} {w w' : W}

@[simp] theorem obeys_ret {a : α} : (ret a : Prog Op Out α).Obeys D Q w ↔ Q w a := Iff.rfl

@[simp] theorem obeys_call {op : Op} {k : Out op → Prog Op Out α} :
    (call op k).Obeys D Q w ↔
      D.allowed w op ∧ ∀ out w', D.answers w op out w' → (k out).Obeys D Q w' := Iff.rfl

theorem Obeys.mono {p : Prog Op Out α} (h : p.Obeys D Q w) (hQ : ∀ w a, Q w a → Q' w a) :
    p.Obeys D Q' w := by
  induction p generalizing w with
  | ret a => exact hQ w a h
  | call op k ih => exact ⟨h.1, fun out w' hans => ih out (h.2 out w' hans)⟩

theorem obeys_bind {p : Prog Op Out α} {f : α → Prog Op Out β} {Q : W → β → Prop} :
    (p >>= f).Obeys D Q w ↔ p.Obeys D (fun w a => (f a).Obeys D Q w) w := by
  induction p generalizing w with
  | ret a => exact Iff.rfl
  | call op k ih =>
    rw [call_bind, obeys_call, obeys_call]
    exact and_congr_right fun _ => forall_congr' fun out => forall_congr' fun w' =>
      imp_congr_right fun _ => ih out

/-- Two programs in a row, with what holds between them. -/
theorem Obeys.bind {p : Prog Op Out α} {f : α → Prog Op Out β} {P : W → α → Prop}
    {Q : W → β → Prop} (h : p.Obeys D P w) (hf : ∀ w a, P w a → (f a).Obeys D Q w) :
    (p >>= f).Obeys D Q w :=
  obeys_bind.2 (h.mono hf)

theorem Obeys.perform {op : Op} {Q : W → Out op → Prop} (hop : D.allowed w op)
    (hQ : ∀ out w', D.answers w op out w' → Q w' out) :
    (Prog.perform op : Prog Op Out (Out op)).Obeys D Q w :=
  ⟨hop, hQ⟩

/-- A program that makes only calls of a kind that is always allowed. -/
theorem Always.obeys {P : Op → Prop} {p : Prog Op Out α} (hp : p.Always P)
    (hallow : ∀ w op, P op → D.allowed w op) : p.Obeys D (fun _ _ => True) w := by
  induction p generalizing w with
  | ret => trivial
  | call op k ih => exact ⟨hallow w op hp.1, fun out _ _ => ih out (hp.2 out)⟩

/-! A step that fails stops the program. -/

section Fallible

variable {E : Type}

/-- What holds behind a step: it failed, or it succeeded. -/
def either (P : W → E → Prop) (Q : W → α → Prop) : W → Except E α → Prop
  | w, .error e => P w e
  | w, .ok a => Q w a

variable {P : W → E → Prop}

@[simp] theorem either_error {e : E} : either P Q w (.error e) ↔ P w e := Iff.rfl

@[simp] theorem either_ok {a : α} : either P Q w (.ok a : Except E α) ↔ Q w a := Iff.rfl

theorem Obeys.except_bind {x : ExceptT E (Prog Op Out) α} {f : α → ExceptT E (Prog Op Out) β}
    {R : W → β → Prop} (h : Obeys D (either P Q) w (x : Prog Op Out (Except E α)))
    (hf : ∀ w a, Q w a → Obeys D (either P R) w (f a : Prog Op Out (Except E β))) :
    Obeys D (either P R) w (x >>= f : ExceptT E (Prog Op Out) β) := by
  refine Obeys.bind (p := x) (f := ExceptT.bindCont f) h fun w r hr => ?_
  rcases r with e | a
  · exact hr
  · exact hf w a hr

theorem Obeys.lift {x : Prog Op Out α} (h : x.Obeys D Q w) :
    Obeys D (either P Q) w (ExceptT.lift x : ExceptT E (Prog Op Out) α) :=
  Obeys.bind h fun _ _ ha => ha

end Fallible

/-! ## What a run keeps -/

theorem Obeys.executes {p : Prog Op Out α} {a : α} (h : p.Obeys D Q w)
    (hex : Executes D.answers p w a w') : Q w' a := by
  induction hex with
  | ret => exact h
  | call hans _ ih => exact ih (h.2 _ _ hans)

/-- After any of its calls, the program still obeys. -/
theorem Obeys.after {p q : Prog Op Out α} {t : List (Event Out)} (h : p.Obeys D Q w)
    (hafter : After p t q) (hans : Answered D.answers w t w') : q.Obeys D Q w' := by
  induction hafter generalizing w with
  | nil =>
    obtain rfl := hans.nil_inv
    exact h
  | cons _ ih =>
    obtain ⟨w₁, hop, hrest⟩ := hans.cons_inv
    exact ih (h.2 _ _ hop) hrest

/-- What every allowed call keeps, the program keeps. -/
theorem Obeys.keeps {p q : Prog Op Out α} {t : List (Event Out)} {I : W → Prop}
    (h : p.Obeys D Q w) (hafter : After p t q) (hans : Answered D.answers w t w')
    (hstep : ∀ w op out w', I w → D.allowed w op → D.answers w op out w' → I w')
    (hw : I w) : I w' := by
  induction hafter generalizing w with
  | nil =>
    obtain rfl := hans.nil_inv
    exact hw
  | cons _ ih =>
    obtain ⟨w₁, hop, hrest⟩ := hans.cons_inv
    exact ih (h.2 _ _ hop) hrest (hstep _ _ _ _ hw h.1 hop)

end Prog

/-! ## Reaching a point -/

section Reaches

variable {answers : W → (op : Op) → Out op → W → Prop} {P : W → Prog Op Out α → Prop} {w w' : W}

variable (answers) in
/-- The program can come, by answers of the world, to a point with `P`. -/
def Reaches (P : W → Prog Op Out α → Prop) (w : W) (p : Prog Op Out α) : Prop :=
  ∃ t q w', p.After t q ∧ Answered answers w t w' ∧ P w' q

theorem reaches_here {p : Prog Op Out α} (h : P w p) : Reaches answers P w p :=
  ⟨[], p, w, .nil p, .nil w, h⟩

theorem reaches_call {op : Op} {k : Out op → Prog Op Out α} (out : Out op)
    (hans : answers w op out w') (h : Reaches answers P w' (k out)) :
    Reaches answers P w (.call op k) := by
  obtain ⟨t, q, w'', hafter, hanswered, hP⟩ := h
  exact ⟨⟨op, out⟩ :: t, q, w'', .cons hafter, .cons hans hanswered, hP⟩

/-- The same, to where it returns. -/
theorem exists_executes_call {op : Op} {k : Out op → Prog Op Out α} {a : α} (out : Out op)
    (hans : answers w op out w') (h : ∃ w'', Executes answers (k out) w' a w'') :
    ∃ w'', Executes answers (.call op k) w a w'' := by
  obtain ⟨w'', h⟩ := h
  exact ⟨w'', .call hans h⟩

end Reaches

/-! ## Checks -/

section Checks

variable {F : Type} {D : Discipline Op Out W} {w w₁ w₂ : W} {checks rest : List (Check Out F)}

/-- The checks obey, and when all of them pass, they have taken the world to another. -/
def Takes (D : Discipline Op Out W) (checks : List (Check Out F)) (w w₁ : W) : Prop :=
  (attempts checks).Obeys D (fun w' r => r = none → w' = w₁) w

theorem takes_nil : Takes D ([] : List (Check Out F)) w w := fun _ => rfl

theorem takes_refuse (f : F) : Takes D (.refuse f :: rest) w w₁ :=
  fun h => absurd h (Option.some_ne_none f)

theorem takes_call {op : Op} {judge : Out op → Option F} (hop : D.allowed w op)
    (hans : ∀ out w', D.answers w op out w' → judge out = none → w' = w₁)
    (h : Takes D rest w₁ w₂) : Takes D (.call op judge :: rest) w w₂ := by
  refine ⟨hop, fun out w' hout => ?_⟩
  beta_reduce
  cases hjudge : judge out with
  | some f => exact fun h => absurd h (Option.some_ne_none f)
  | none =>
    obtain rfl := hans out w' hout hjudge
    exact h

theorem Takes.append (h : Takes D checks w w₁) (hrest : Takes D rest w₁ w₂) :
    Takes D (checks ++ rest) w w₂ := by
  unfold Takes
  rw [attempts_append]
  refine Prog.Obeys.bind h ?_
  rintro w' (_ | f) hw'
  · obtain rfl := hw' rfl
    exact hrest
  · exact fun h => absurd h (Option.some_ne_none f)

/-- The stages one after the other. -/
theorem Takes.stage {stages : List (List (Check Out F))} (h : Takes D checks w w₁)
    (hrest : Takes D stages.flatten w₁ w₂) : Takes D (checks :: stages).flatten w w₂ := by
  rw [List.flatten_cons]
  exact h.append hrest

/-- A stage that is configured by an option. -/
theorem takes_elim {o : Option β} {checks : β → List (Check Out F)} {f : Option β → W}
    (hnone : f none = w) (h : ∀ b, o = some b → Takes D (checks b) w (f (some b))) :
    Takes D (o.elim [] checks) w (f o) := by
  cases ho : o with
  | none => exact hnone.symm ▸ takes_nil
  | some b => exact h b ho

/-- A stage that is switched on. -/
theorem takes_ite {c : Bool} {f : Bool → W} (hfalse : f false = w)
    (h : c = true → Takes D checks w (f true)) :
    Takes D (if c then checks else []) w (f c) := by
  cases hc : c with
  | false => exact hfalse.symm ▸ takes_nil
  | true => exact h hc

end Checks

/-! ## Handlers -/

section Handlers

variable {Op' : Type} {Out' : Op' → Type} {D' : Discipline Op' Out' W'}

/-- Each call carried out by a program over other calls. -/
def Prog.interpret (handler : (op : Op) → Prog Op' Out' (Out op)) :
    Prog Op Out α → Prog Op' Out' α
  | .ret a => .ret a
  | .call op k => handler op >>= fun out => (k out).interpret handler

theorem Prog.interpret_bind {handler : (op : Op) → Prog Op' Out' (Out op)} (p : Prog Op Out α)
    (f : α → Prog Op Out β) :
    (p >>= f).interpret handler = p.interpret handler >>= fun a => (f a).interpret handler := by
  induction p with
  | ret a => rfl
  | call op k ih =>
    rw [call_bind, interpret, interpret, bind_assoc]
    congr 1
    funext out
    exact ih out

/-- A world below another one, in which the handler carries out each allowed call as the world above
answers it: below, what obeys above obeys. -/
theorem Prog.Obeys.interpret {handler : (op : Op) → Prog Op' Out' (Out op)}
    {R : W' → W → Prop} {Q : W → α → Prop}
    (hhandler : ∀ w w' op, R w' w → D.allowed w op →
      (handler op).Obeys D' (fun w₁' out => ∃ w₁, D.answers w op out w₁ ∧ R w₁' w₁) w')
    {p : Prog Op Out α} {w : W} {w' : W'} (hp : p.Obeys D Q w) (hrep : R w' w) :
    (p.interpret handler).Obeys D' (fun w' a => ∃ w, R w' w ∧ Q w a) w' := by
  induction p generalizing w w' with
  | ret a => exact ⟨w, hrep, hp⟩
  | call op k ih =>
    refine Obeys.bind (hhandler w w' op hrep hp.1) ?_
    rintro w₁' out ⟨w₁, hans, hrep₁⟩
    exact ih out (hp.2 out w₁ hans) hrep₁

end Handlers

/-! ## Loops -/

section Loops

/-- What holds where a stretch of a loop ends: the invariant of the point it goes on at, or the
postcondition of what the loop returns. -/
def Loop.resume (inv : W → Point → Prop) (Q : W → α → Prop) : W → Point ⊕ α → Prop
  | w, .inl pt => inv w pt
  | w, .inr a => Q w a

variable {D : Discipline Op Out W} {inv : W → Point → Prop} {Q : W → α → Prop} {w w' : W}

@[simp] theorem Loop.resume_inl {pt : Point} : Loop.resume inv Q w (.inl pt) ↔ inv w pt := Iff.rfl

@[simp] theorem Loop.resume_inr {a : α} : Loop.resume inv Q w (.inr a) ↔ Q w a := Iff.rfl

/-- Every stretch of the loop obeys, from a point with its invariant on. -/
def Loop.Keeps (D : Discipline Op Out W) (inv : W → Point → Prop) (Q : W → α → Prop)
    (body : Loop Op Out Point α) : Prop :=
  ∀ w pt, inv w pt → (body pt).Obeys D (Loop.resume inv Q) w

/-- The loop makes the calls, and `q` is what it has left of the stretch it is in. -/
inductive LoopAfter (body : Loop Op Out Point α) :
    Prog Op Out (Point ⊕ α) → List (Event Out) → Prog Op Out (Point ⊕ α) → Prop
  | nil (p : Prog Op Out (Point ⊕ α)) : LoopAfter body p [] p
  | call {op : Op} {k : Out op → Prog Op Out (Point ⊕ α)} {out : Out op} {t : List (Event Out)}
      {q : Prog Op Out (Point ⊕ α)} :
      LoopAfter body (k out) t q → LoopAfter body (.call op k) (⟨op, out⟩ :: t) q
  | again {pt : Point} {t : List (Event Out)} {q : Prog Op Out (Point ⊕ α)} :
      LoopAfter body (body pt) t q → LoopAfter body (.ret (.inl pt)) t q

variable {body : Loop Op Out Point α}

theorem LoopAfter.trans {p q q' : Prog Op Out (Point ⊕ α)} {t t' : List (Event Out)}
    (h : LoopAfter body p t q) (h' : LoopAfter body q t' q') : LoopAfter body p (t ++ t') q' := by
  induction h with
  | nil => exact h'
  | call _ ih => exact .call (ih h')
  | again _ ih => exact .again (ih h')

/-- What every allowed call keeps, the loop keeps. -/
theorem LoopAfter.keeps {Inv : W → Prop} (hbody : body.Keeps D inv Q)
    (hstep : ∀ w op out w', Inv w → D.allowed w op → D.answers w op out w' → Inv w')
    {p q : Prog Op Out (Point ⊕ α)} {t : List (Event Out)} (h : LoopAfter body p t q)
    (hans : Answered D.answers w t w') (hp : p.Obeys D (Loop.resume inv Q) w) (hw : Inv w) :
    Inv w' := by
  induction h generalizing w with
  | nil =>
    obtain rfl := hans.nil_inv
    exact hw
  | call _ ih =>
    obtain ⟨w₁, hop, hrest⟩ := hans.cons_inv
    exact ih hrest (hp.2 _ _ hop) (hstep _ _ _ _ hw hp.1 hop)
  | again _ ih => exact ih hans (hbody _ _ hp) hw

/-- Each call of the loop carried out by a program over other calls. -/
def Loop.interpret {Op' : Type} {Out' : Op' → Type} (body : Loop Op Out Point α)
    (handler : (op : Op) → Prog Op' Out' (Out op)) : Loop Op' Out' Point α :=
  fun pt => (body pt).interpret handler

/-- What the loop keeps above, the carried out loop keeps below. -/
theorem Loop.Keeps.interpret {Op' : Type} {Out' : Op' → Type} {D' : Discipline Op' Out' W'}
    {handler : (op : Op) → Prog Op' Out' (Out op)} {R : W' → W → Prop}
    (hhandler : ∀ w w' op, R w' w → D.allowed w op →
      (handler op).Obeys D' (fun w₁' out => ∃ w₁, D.answers w op out w₁ ∧ R w₁' w₁) w')
    (h : body.Keeps D inv Q) :
    (body.interpret handler).Keeps D' (fun w' pt => ∃ w, R w' w ∧ inv w pt)
      fun w' a => ∃ w, R w' w ∧ Q w a := by
  rintro w' pt ⟨w, hrep, hinv⟩
  refine (Prog.Obeys.interpret hhandler (h w pt hinv) hrep).mono ?_
  rintro w₁' (pt' | a) ⟨w₁, hrep₁, hresume⟩
  · exact ⟨w₁, hrep₁, hresume⟩
  · exact ⟨w₁, hrep₁, hresume⟩

/-- After any of its calls, the loop still obeys. -/
theorem LoopAfter.obeys (hbody : body.Keeps D inv Q) {p q : Prog Op Out (Point ⊕ α)}
    {t : List (Event Out)} (h : LoopAfter body p t q) (hans : Answered D.answers w t w')
    (hp : p.Obeys D (Loop.resume inv Q) w) : q.Obeys D (Loop.resume inv Q) w' := by
  induction h generalizing w with
  | nil =>
    obtain rfl := hans.nil_inv
    exact hp
  | call _ ih =>
    obtain ⟨w₁, hop, hrest⟩ := hans.cons_inv
    exact ih hrest (hp.2 _ _ hop)
  | again _ ih => exact ih hans (hbody _ _ hp)

section Leads

variable {answers : W → (op : Op) → Out op → W → Prop} {P P' : W → Prog Op Out (Point ⊕ α) → Prop}
  {p : Prog Op Out (Point ⊕ α)}

variable (body answers) in
/-- The loop can come, by answers of the world, to a point with `P`. -/
def Loop.Leads (P : W → Prog Op Out (Point ⊕ α) → Prop) (w : W) (p : Prog Op Out (Point ⊕ α)) :
    Prop :=
  ∃ t q w', LoopAfter body p t q ∧ Answered answers w t w' ∧ P w' q

theorem Loop.leads_here (h : P w p) : body.Leads answers P w p := ⟨[], p, w, .nil p, .nil w, h⟩

theorem Loop.leads_call {op : Op} {k : Out op → Prog Op Out (Point ⊕ α)} (out : Out op)
    (hans : answers w op out w') (h : body.Leads answers P w' (k out)) :
    body.Leads answers P w (.call op k) := by
  obtain ⟨t, q, w₁, hafter, hanswered, hP⟩ := h
  exact ⟨⟨op, out⟩ :: t, q, w₁, .call hafter, .cons hans hanswered, hP⟩

end Leads

end Loops

/-! ## Histories -/

section Histories

/-- The world is the calls so far, and what they came back with. -/
def onHistory (allowed : List (Event Out) → Op → Prop) :
    Discipline Op Out (List (Event Out)) where
  allowed := allowed
  answers t op out t' := t' = t ++ [⟨op, out⟩]

variable {allowed : List (Event Out) → Op → Prop} {t s : List (Event Out)}

theorem Answered.append {answers : W → (op : Op) → Out op → W → Prop} {w w' w'' : W}
    (h : Answered answers w t w') (h' : Answered answers w' s w'') :
    Answered answers w (t ++ s) w'' := by
  induction h with
  | nil => exact h'
  | cons hop _ ih => exact .cons hop (ih h')

theorem answered_onHistory : Answered (onHistory allowed).answers s t (s ++ t) := by
  induction t generalizing s with
  | nil =>
    rw [List.append_nil]
    exact .nil s
  | cons event t ih =>
    rw [← List.singleton_append, ← List.append_assoc]
    exact .cons rfl ih

theorem Prog.obeys_onHistory_call {Q : List (Event Out) → α → Prop} {op : Op}
    {k : Out op → Prog Op Out α} :
    (Prog.call op k).Obeys (onHistory allowed) Q t ↔
      allowed t op ∧ ∀ out, (k out).Obeys (onHistory allowed) Q (t ++ [⟨op, out⟩]) :=
  and_congr_right fun _ => forall_congr' fun _ => forall_eq

/-- A program that makes only calls of a kind, all allowed, comes back by one of its runs. -/
theorem Prog.obeys_of_always {Inv : List (Event Out) → Prop} {P final : Op → Prop}
    {p : Prog Op Out α} (hallow : ∀ t op, Inv t → P op → allowed t op)
    (hkeep : ∀ t op out, Inv t → P op → Inv (t ++ [⟨op, out⟩])) (hp : p.Always P) (ht : Inv t) :
    p.Obeys (onHistory allowed)
      (fun t' a => Inv t' ∧ ∃ s, t' = t ++ s ∧ Runs final p s (.returned a)) t := by
  induction p generalizing t with
  | ret a => exact ⟨ht, [], (List.append_nil t).symm, .ret a⟩
  | call op k ih =>
    refine obeys_onHistory_call.2 ⟨hallow t op ht hp.1, fun out => ?_⟩
    refine (ih out (hp.2 out) (hkeep t op out ht hp.1)).mono ?_
    rintro t' a ⟨ht', s, rfl, hruns⟩
    exact ⟨ht', ⟨op, out⟩ :: s, by simp, .call op k out hruns⟩

end Histories

/-! ## What cannot be put off -/

/-- Every execution comes, within so many steps, to a state with `P`, and none stands still on the
way: each state before it is `ready` for a step. -/
def Inevitable {C : Type} (step : C → C → Prop) (ready P : C → Prop) : ℕ → C → Prop
  | 0, c => P c
  | n + 1, c => P c ∨ ready c ∧ ∀ c', step c c' → Inevitable step ready P n c'

/-- A rank that every step lowers, as long as `P` does not hold, bounds the way to `P`. -/
theorem inevitable_of_rank {C : Type} {step : C → C → Prop} {ready P : C → Prop}
    (inv : C → ℕ → Prop) (hzero : ∀ c, inv c 0 → P c)
    (hstep : ∀ c n, inv c (n + 1) → ¬ P c → ready c ∧ ∀ c', step c c' → inv c' n) :
    ∀ {n : ℕ} {c : C}, inv c n → Inevitable step ready P n c
  | 0, c, h => hzero c h
  | n + 1, c, h => by
    by_cases hP : P c
    · exact .inl hP
    · obtain ⟨hready, hall⟩ := hstep c n h hP
      exact .inr ⟨hready, fun c' hc' => inevitable_of_rank inv hzero hstep (hall c' hc')⟩

end Program
