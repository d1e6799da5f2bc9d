import Pnut.Lib.Discipline

/-!
# Owned descriptors

Programs that open descriptors, and drop each at the end of the scope that owns it, however the
scope is left. `erase` is the program without the closing. A machine has a table of the objects
behind its descriptors and a state of its own; it hands out descriptors that are free. A scope that
owns a descriptor is reasoned about in a world with one object more, and leaves the world without
it.
-/

namespace Program

/-! ## Scopes -/

namespace Owned

/-- A call, or the closing of a descriptor. -/
inductive Op (O : Type) where
  | call (op : O)
  | close (fd : Int32)

abbrev Op.Out {O : Type} (Out : O → Type) : Op O → Type
  | .call op => Out op
  | .close _ => Unit

variable {O : Type} {Out : O → Type} {E E' α β : Type}

variable (Out E α) in
/-- A step that may fail, of a program that owns descriptors. -/
abbrev Step := ExceptT E (Prog (Op O) (Op.Out Out)) α

/-- A step that owns none. -/
def lift (x : ExceptT E (Prog O Out) α) : Step Out E α :=
  ExceptT.mk (Prog.interpret (fun op => Prog.perform (Op.call op)) x.run)

/-- The drop of an owned descriptor. -/
def dropFd (fd : Int32) : Prog (Op O) (Op.Out Out) Unit :=
  if 0 ≤ fd then Prog.perform (Op.close fd) else pure ()

/-- A scope that owns a descriptor, which is dropped however the scope is left. -/
def owning (fd : Int32) (scope : Prog (Op O) (Op.Out Out) α) : Prog (Op O) (Op.Out Out) α := do
  let result ← scope
  dropFd fd
  pure result

/-- The scope behind a step that opens a descriptor. -/
def holding (x : Step Out E Int32) (scope : Int32 → Step Out E α) : Step Out E α := do
  let fd ← x
  ExceptT.mk (owning fd (scope fd).run)

/-- Another kind of errors. -/
def mapError (f : E → E') (x : Step Out E α) : Step Out E' α := ExceptT.adapt f x

/-! ## Without the closing -/

/-- A call of the plain program, which closes nothing. -/
def plain : (op : Op O) → Prog O Out (Op.Out Out op)
  | .call op => Prog.perform op
  | .close _ => pure ()

def erase (x : Step Out E α) : ExceptT E (Prog O Out) α :=
  ExceptT.mk (x.run.interpret plain)

theorem erase_pure (a : α) : erase (pure a : Step Out E α) = pure a := rfl

theorem erase_bind (x : Step Out E α) (f : α → Step Out E β) :
    erase (x >>= f) = erase x >>= fun a => erase (f a) := by
  show Prog.interpret plain (x.run >>= ExceptT.bindCont f) = _
  rw [Prog.interpret_bind]
  refine congrArg (x.run.interpret plain >>= ·) ?_
  funext r
  cases r <;> rfl

theorem erase_lift (x : ExceptT E (Prog O Out) α) : erase (lift x) = x := by
  show (Prog.interpret _ x.run).interpret plain = x.run
  induction x.run with
  | ret a => rfl
  | call op k ih => exact congrArg (Prog.call op) (funext ih)

theorem interpret_owning (fd : Int32) (scope : Prog (Op O) (Op.Out Out) α) :
    (owning fd scope).interpret plain = scope.interpret plain := by
  have hdrop : (dropFd fd : Prog (Op O) (Op.Out Out) Unit).interpret plain = pure () := by
    unfold dropFd
    split_ifs <;> rfl
  unfold owning
  simp only [Prog.interpret_bind, hdrop]
  exact Prog.bind_ret _

theorem erase_holding (x : Step Out E Int32) (scope : Int32 → Step Out E α) :
    erase (holding x scope) = erase x >>= fun fd => erase (scope fd) := by
  unfold holding
  rw [erase_bind]
  exact congrArg (erase x >>= ·) (funext fun fd => interpret_owning fd _)

theorem erase_mapError (f : E → E') (x : Step Out E α) :
    erase (mapError f x) = ExceptT.adapt f (erase x) :=
  Prog.interpret_bind x.run _

end Owned

/-! ## Machines -/

/-- The objects behind the open descriptors, and the rest of the state. -/
structure Machine (Object S : Type) where
  table : Int32 → Option Object
  state : S

namespace Machine

variable {Object S : Type} (w : Machine Object S)

/-- A descriptor that can be handed out. -/
def Fresh (fd : Int32) : Prop := 0 ≤ fd ∧ w.table fd = none

def give (fd : Int32) (object : Object) : Machine Object S :=
  { w with table := Function.update w.table fd (some object) }

def close (fd : Int32) : Machine Object S := { w with table := Function.update w.table fd none }

/-- What a call does to the object behind a descriptor. -/
def modify (fd : Int32) (f : Object → Object) : Machine Object S :=
  { w with table := Function.update w.table fd ((w.table fd).map f) }

variable {w} {fd n : Int32} {object object' : Object} {f f' : Object → Object}

theorem give_self : (w.give fd object).table fd = some object := Function.update_self _ _ _

theorem give_of_ne (h : n ≠ fd) : (w.give fd object).table n = w.table n :=
  Function.update_of_ne h _ _

theorem give_of_open (hfresh : w.Fresh fd) (h : w.table n = some object') :
    (w.give fd object).table n = some object' := by
  have hne : n ≠ fd := by
    rintro rfl
    rw [hfresh.2] at h
    cases h
  exact (give_of_ne hne).trans h

theorem close_of_ne (h : n ≠ fd) : (w.close fd).table n = w.table n :=
  Function.update_of_ne h _ _

theorem Fresh.of_give (h : (w.give n object).Fresh fd) : w.Fresh fd ∧ fd ≠ n := by
  have hne : fd ≠ n := by
    rintro rfl
    cases give_self.symm.trans h.2
  exact ⟨⟨h.1, (give_of_ne hne).symm.trans h.2⟩, hne⟩

theorem Fresh.give (h : w.Fresh fd) (hne : fd ≠ n) : (w.give n object).Fresh fd :=
  ⟨h.1, (give_of_ne hne).trans h.2⟩

theorem close_give (hfresh : w.Fresh fd) : (w.give fd object).close fd = w := by
  unfold give close
  rw [Function.update_idem, ← hfresh.2, Function.update_eq_self]

theorem close_give_give (hfresh : w.Fresh fd) (h : (w.give fd object).Fresh n) :
    ((w.give fd object).give n object').close fd = w.give n object' := by
  unfold give close
  rw [Function.update_comm h.of_give.2, Function.update_idem, ← hfresh.2,
    Function.update_eq_self]

theorem modify_give : (w.give fd object).modify fd f = w.give fd (f object) := by
  unfold modify
  rw [give_self]
  simp [give]

theorem modify_give_give (hne : fd ≠ n) : ((w.give fd object).give n object').modify fd f =
    (w.give fd (f object)).give n object' := by
  unfold modify
  rw [give_of_ne hne, give_self, Option.map_some]
  unfold give
  rw [Function.update_comm hne, Function.update_idem, Function.update_comm hne.symm]

theorem modify_eq (h : w.table fd = some object) (hf : f object = object) : w.modify fd f = w := by
  unfold modify
  rw [h, Option.map_some, hf, ← h, Function.update_eq_self]

theorem modify_self (h : w.table fd = some object) :
    (w.modify fd f).table fd = some (f object) := by
  simp [modify, h]

theorem modify_modify : (w.modify fd f).modify fd f' = w.modify fd (f' ∘ f) := by
  unfold modify
  simp

end Machine

/-! ## Discipline -/

section Discipline

open Owned (Op lift holding mapError)

variable {O : Type} {Out : O → Type} {Object S E E' α β : Type}

/-- What a machine answers to calls, with the closing of descriptors. -/
def Owned.Answers (answers : Machine Object S → (op : O) → Out op → Machine Object S → Prop)
    (w : Machine Object S) : (op : Op O) → Op.Out Out op → Machine Object S → Prop
  | .call op, out, w' => answers w op out w'
  | .close fd, (), w' => w' = w.close fd

/-- The same calls are allowed, and the closing of descriptors that are open. -/
def Owned.discipline (D : Discipline O Out (Machine Object S)) :
    Discipline (Op O) (Op.Out Out) (Machine Object S) where
  allowed w
    | .call op => D.allowed w op
    | .close fd => (w.table fd).isSome
  answers := Owned.Answers D.answers

/-- Either the step fails, and `P` holds, or it succeeds. -/
def Plain (D : Discipline O Out (Machine Object S)) (P : Machine Object S → Prop)
    (Q : Machine Object S → α → Prop) (w : Machine Object S)
    (x : ExceptT E (Prog O Out) α) : Prop :=
  Prog.Obeys D (Prog.either (fun w' _ => P w') Q) w x

/-- As `Plain`, for a step with scopes. -/
def Scoped (D : Discipline O Out (Machine Object S)) (P : Machine Object S → E → Prop)
    (Q : Machine Object S → α → Prop) (w : Machine Object S) (x : Owned.Step Out E α) : Prop :=
  Prog.Obeys (Owned.discipline D) (Prog.either P Q) w x

/-- What holds in a scope when the descriptor that it owns is about to be dropped. -/
def Closing (fd : Int32) (P : Machine Object S → Prop) (w : Machine Object S) : Prop :=
  (w.table fd).isSome ∧ P (w.close fd)

variable {D : Discipline O Out (Machine Object S)} {w : Machine Object S}
  {Q : Machine Object S → α → Prop} {R : Machine Object S → β → Prop} {fd n : Int32}
  {object object' : Object}

theorem closing_give {P : Machine Object S → Prop} (hfresh : w.Fresh fd) (h : P w) :
    Closing fd P (w.give fd object) := by
  unfold Closing
  rw [Machine.give_self, Machine.close_give hfresh]
  exact ⟨rfl, h⟩

/-- The same, with a descriptor that was opened in the scope and outlives it. -/
theorem closing_give_give {P : Machine Object S → Prop} (hfresh : w.Fresh fd)
    (hn : (w.give fd object).Fresh n) (h : P (w.give n object')) :
    Closing fd P ((w.give fd object).give n object') := by
  unfold Closing
  rw [Machine.give_of_ne hn.of_give.2.symm, Machine.give_self, Machine.close_give_give hfresh hn]
  exact ⟨rfl, h⟩

section Plain

variable {P : Machine Object S → Prop}

theorem plain_pure {a : α} (h : Q w a) : Plain D P Q w (pure a : ExceptT E (Prog O Out) α) := h

theorem plain_throw {e : E} (h : P w) : Plain D P Q w (throw e : ExceptT E (Prog O Out) α) := h

theorem Plain.bind {x : ExceptT E (Prog O Out) α} {f : α → ExceptT E (Prog O Out) β}
    (h : Plain D P Q w x) (hf : ∀ w a, Q w a → Plain D P R w (f a)) :
    Plain D P R w (x >>= f) :=
  Prog.Obeys.except_bind h hf

end Plain

variable {P P' : Machine Object S → E → Prop}

theorem Scoped.bind {x : Owned.Step Out E α} {f : α → Owned.Step Out E β} (h : Scoped D P Q w x)
    (hf : ∀ w a, Q w a → Scoped D P R w (f a)) : Scoped D P R w (x >>= f) :=
  Prog.Obeys.except_bind h hf

theorem Scoped.mono {Q' : Machine Object S → α → Prop} {x : Owned.Step Out E α}
    (h : Scoped D P Q w x) (hP : ∀ w e, P w e → P' w e)
    (hQ : ∀ w a, Q w a → Q' w a) : Scoped D P' Q' w x := by
  refine Prog.Obeys.mono h ?_
  rintro w (e | a) h
  · exact hP w e h
  · exact hQ w a h

theorem scoped_lift {P : Machine Object S → Prop} {x : ExceptT E (Prog O Out) α}
    (h : Plain D P Q w x) : Scoped D (fun w' _ => P w') Q w (lift x) := by
  refine (Prog.Obeys.interpret (R := Eq) ?_ h rfl).mono fun _ _ ⟨_, heq, hQ⟩ => heq ▸ hQ
  rintro w _ op rfl hop
  exact Prog.Obeys.perform hop fun out w' hans => ⟨w', hans, rfl⟩

theorem scoped_mapError {P : Machine Object S → E' → Prop} {f : E → E'} {x : Owned.Step Out E α}
    (h : Scoped D (fun w e => P w (f e)) Q w x) : Scoped D P Q w (mapError f x) := by
  refine Prog.Obeys.bind h ?_
  rintro w (e | a) h <;> exact h

/-- The scope that owns a descriptor. -/
theorem scoped_holding {x : Owned.Step Out E Int32} {scope : Int32 → Owned.Step Out E α}
    (h : Scoped D P (fun w fd => 0 ≤ fd ∧
      Scoped D (fun w e => Closing fd (P · e) w) (fun w a => Closing fd (Q · a) w) w
        (scope fd)) w x) :
    Scoped D P Q w (holding x scope) := by
  refine Scoped.bind h ?_
  rintro w fd ⟨hpos, hscope⟩
  refine Prog.Obeys.bind hscope ?_
  rintro w (e | a) ⟨hopen, hclose⟩ <;>
  · show Prog.Obeys _ _ _ (Prog.bind (ite (0 ≤ fd) _ _) _)
    rw [if_pos hpos]
    refine ⟨hopen, ?_⟩
    rintro ⟨⟩ w' rfl
    exact hclose

end Discipline

end Program
