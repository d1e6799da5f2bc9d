import Mathlib.Data.List.TakeWhile
import Pnut.Kafel.Compile
import Pnut.Proofs.Flatten
import Pnut.Proofs.Includes

/-!
# Which binding of a name wins

Prelude, main text and includes are merged into one list of bindings. Of the policies of a name the
last one counts. Of its defines the first one counts when the loop of the resolver comes to it, but
the last one when another define refers to the name before: so a name that is bound twice has no
one winner, unless nothing can refer to it.
-/

namespace Pnut.Kafel

/-! ## The bindings of a name -/

section Bindings

variable {α : Type}

def bindingsOf (name : String) (l : List (String × α)) : List α :=
  (l.filter fun d => d.1 = name).map Prod.snd

theorem bindingsOf_append (name : String) (l l' : List (String × α)) :
    bindingsOf name (l ++ l') = bindingsOf name l ++ bindingsOf name l' := by
  simp [bindingsOf]

theorem bindingsOf_ne_nil {name : String} {l : List (String × α)} :
    bindingsOf name l ≠ [] ↔ name ∈ l.map Prod.fst := by
  simp [bindingsOf, List.filter_eq_nil_iff]

/-- A map of bindings, the newest first, has the last one. -/
theorem lookup_reverse_eq_getLast? (name : String) (l : List (String × α)) :
    l.reverse.lookup name = (bindingsOf name l).getLast? := by
  induction l using List.reverseRecOn with
  | nil => rfl
  | append_singleton l d ih =>
    obtain ⟨key, value⟩ := d
    rw [List.reverse_append, List.reverse_singleton, List.singleton_append, lookup_cons_ite, ih,
      bindingsOf_append]
    by_cases h : name = key
    · subst h
      simp [bindingsOf]
    · simp [bindingsOf, h, Ne.symm h]

end Bindings

/-- The defines before the first one of a name, as the resolver's loop takes them. -/
def before (name : String) (defines : List (String × Ast.Expr)) : List (String × Ast.Expr) :=
  defines.takeWhile fun d => d.1 ≠ name

/-- Some define refers to the name before the loop comes to its first one. -/
def reachedEarly (defines : List (String × Ast.Expr)) (name : String) : Bool :=
  match resolveDefines defines.reverse defines.length (before name defines) [] with
  | .ok t => (t.lookup name).isSome
  | .error _ => false

/-- The table of the loop at the define by which it comes to the name. -/
def foundIn (raw : List (String × Ast.Expr)) (left : ℕ) (name : String) :
    List (String × Ast.Expr) → Table → Table
  | [], t => t
  | d :: rest, t =>
    match resolveDefines raw left [d] t with
    | .ok t' => if (t'.lookup name).isSome then t else foundIn raw left name rest t'
    | .error _ => t

/-- What is in the table when the name is found: at its first define, or at one before it that
leads to it. -/
def tableAt (defines : List (String × Ast.Expr)) (name : String) : Table :=
  foundIn defines.reverse defines.length name defines []

/-- The value of an expression: its names are read in the table, and those that are not there in
their last defines. -/
def EvaluatesTo (raw : List (String × Ast.Expr)) (found : Table) (e : Ast.Expr) (v : UInt64) :
    Prop :=
  ∃ val, (∀ m ∈ e.names, (equations (withValues found raw)).Solved m (val m)) ∧
    v = orOf val e.leaves

/-- The place of the define that counts among those of the name. -/
def winningDefine (defines : List (String × Ast.Expr)) (name : String) : ℕ :=
  if reachedEarly defines name then (bindingsOf name defines).length - 1 else 0

/-- The place of the policy that counts among those of the name. -/
def winningPolicy (policies : List Ast.Policy) (name : String) : ℕ :=
  (bindingsOf name (policies.map fun p => (p.name, p))).length - 1

/-! ## Invariants of the resolver -/

section Invariant

variable {define : String → Span → Table → Result (UInt64 × Table)} {I : Table → Prop}
  {Q : String → Prop}

mutual

/-- What holds of the table across each name found on demand holds across an expression. -/
theorem resolveDefineExpr_invariant
    (hdefine : ∀ name span t v t', I t → t.lookup name = none →
      define name span t = .ok (v, t') → I t' ∧ Q name)
    (hbound : ∀ t name v, I t → t.lookup name = some v → Q name) :
    ∀ {e : Ast.Expr} {t t' : Table} {v : UInt64}, I t →
    resolveDefineExpr define e t = .ok (v, t') → I t' ∧ ∀ name, .inr name ∈ e.leaves → Q name
  | .number n, t, t', v, ht, h => by
    obtain ⟨-, rfl⟩ : n = v ∧ t = t' := by
      simpa [resolveDefineExpr, pure, Except.pure] using h
    exact ⟨ht, by simp [Ast.Expr.leaves]⟩
  | .ident name span, t, t', v, ht, h => by
    unfold resolveDefineExpr at h
    have hleaves : ∀ m, (.inr m : UInt64 ⊕ String) ∈ (Ast.Expr.ident name span).leaves →
        m = name := by simp [Ast.Expr.leaves]
    split at h
    · rename_i val hval
      obtain ⟨-, rfl⟩ : val = v ∧ t = t' := by simpa [pure, Except.pure] using h
      exact ⟨ht, fun m hm => hleaves m hm ▸ hbound t name val ht hval⟩
    · rename_i hnone
      obtain ⟨ht', hq⟩ := hdefine name span t v t' ht hnone h
      exact ⟨ht', fun m hm => hleaves m hm ▸ hq⟩
  | .bitOr parts, t, t', v, ht, h => by
    unfold resolveDefineExpr at h
    exact resolveDefineParts_invariant hdefine hbound ht h

theorem resolveDefineParts_invariant
    (hdefine : ∀ name span t v t', I t → t.lookup name = none →
      define name span t = .ok (v, t') → I t' ∧ Q name)
    (hbound : ∀ t name v, I t → t.lookup name = some v → Q name) :
    ∀ {parts : List Ast.Expr} {t t' : Table} {acc v : UInt64}, I t →
    resolveDefineParts define acc parts t = .ok (v, t') →
    I t' ∧ ∀ name, .inr name ∈ Ast.Expr.leavesOfParts parts → Q name
  | [], t, t', acc, v, ht, h => by
    obtain ⟨-, rfl⟩ : acc = v ∧ t = t' := by
      simpa [resolveDefineParts, pure, Except.pure] using h
    exact ⟨ht, by simp [Ast.Expr.leavesOfParts]⟩
  | part :: parts, t, t', acc, v, ht, h => by
    simp only [resolveDefineParts, bind_eq_ok] at h
    obtain ⟨⟨x, t₁⟩, hpart, hparts⟩ := h
    obtain ⟨ht₁, hq₁⟩ := resolveDefineExpr_invariant hdefine hbound ht hpart
    obtain ⟨ht₂, hq₂⟩ := resolveDefineParts_invariant hdefine hbound ht₁ hparts
    refine ⟨ht₂, fun name hname => ?_⟩
    unfold Ast.Expr.leavesOfParts at hname
    exact (List.mem_append.1 hname).elim (hq₁ name) (hq₂ name)

end

end Invariant

/-! ## The value of a name -/

section Value

variable {raw : List (String × Ast.Expr)} {I : Table → Prop} {name : String}

theorem resolveDefine_invariant (hinsert : ∀ m e left path t t' v, I t → t.lookup m = none →
      raw.lookup m = some e → resolveDefineExpr (resolveDefine raw left path) e t = .ok (v, t') →
      I t' → I ((m, v) :: t')) {left : ℕ} {path : List String} (m : String) (span : Span)
    (t : Table) (v : UInt64) (t' : Table) (ht : I t) (hm : t.lookup m = none)
    (h : resolveDefine raw left path m span t = .ok (v, t')) : I t' := by
  induction left generalizing path m span t v t' with
  | zero =>
    obtain ⟨e, left', t₁, -, hleft, -⟩ := resolveDefine_inv h
    omega
  | succ left ih =>
    obtain ⟨e, _, t₁, -, ⟨⟩, hlookup, he, rfl⟩ := resolveDefine_inv h
    have ht₁ := (resolveDefineExpr_invariant (Q := fun _ => True)
      (fun m' span t v t' ht hm' hok => ⟨ih m' span t v t' ht hm' hok, trivial⟩)
      (fun _ _ _ _ _ => trivial) ht he).1
    exact hinsert m e left (m :: path) t t₁ v ht hm hlookup he ht₁

/-- What each insertion keeps, the loop keeps. -/
theorem resolveDefines_invariant {left : ℕ} (hinsert : ∀ m e left path t t' v, I t →
      t.lookup m = none → raw.lookup m = some e →
      resolveDefineExpr (resolveDefine raw left path) e t = .ok (v, t') → I t' →
      I ((m, v) :: t')) :
    ∀ {rest : List (String × Ast.Expr)} {t t' : Table},
    (∀ d ∈ rest, ∀ t t' v, I t → t.lookup d.1 = none → I t' → I ((d.1, v) :: t')) → I t →
    resolveDefines raw left rest t = .ok t' → I t'
  | [], t, t', _, ht, h => by
    obtain rfl : t = t' := by simpa [resolveDefines, pure, Except.pure] using h
    exact ht
  | (m, e) :: rest, t, t', hloop, ht, h => by
    rw [List.forall_mem_cons] at hloop
    unfold resolveDefines at h
    split at h
    · exact resolveDefines_invariant hinsert hloop.2 ht h
    · rename_i hm
      simp only [bind_eq_ok] at h
      obtain ⟨⟨v, t₁⟩, he, h⟩ := h
      have ht₁ := (resolveDefineExpr_invariant (Q := fun _ => True)
        (fun m' span t v t' ht hm' hok =>
          ⟨resolveDefine_invariant hinsert m' span t v t' ht hm' hok, trivial⟩)
        (fun _ _ _ _ _ => trivial) ht he).1
      exact resolveDefines_invariant hinsert hloop.2 (hloop.1 t t₁ v ht hm ht₁) h

theorem Keeps.insert {t t' t'' : Table} {m : String} {v : UInt64} (h : Keeps t t')
    (h' : Keeps t t'') (hm : t'.lookup m = none) : Keeps t ((m, v) :: t'') := by
  intro m' w hw
  have hne : m' ≠ m := by
    rintro rfl
    simpa [hm] using h m' w hw
  rw [lookup_cons_ite, if_neg hne]
  exact h' m' w hw

/-- A value that is in the table stays there. -/
theorem resolveDefines_keeps {left : ℕ} {rest : List (String × Ast.Expr)} {t t' : Table}
    (h : resolveDefines raw left rest t = .ok t') : Keeps t t' :=
  resolveDefines_invariant (I := Keeps t)
    (fun _ _ _ _ _ _ _ ht hm _ _ ht' => ht.insert ht' hm)
    (fun _ _ _ _ _ ht hm ht' => ht.insert ht' hm) (fun _ _ hv => hv) h

theorem resolveDefines_append {left : ℕ} : ∀ {l l' : List (String × Ast.Expr)} {t : Table},
    resolveDefines raw left (l ++ l') t =
      resolveDefines raw left l t >>= resolveDefines raw left l'
  | [], l', t => rfl
  | (m, e) :: l, l', t => by
    rw [List.cons_append]
    unfold resolveDefines
    split
    · exact resolveDefines_append
    · rcases resolveDefineExpr (resolveDefine raw left []) e t with e | ⟨v, t₁⟩
      · rfl
      · exact resolveDefines_append

theorem Gives.evaluatesTo {found t t' : Table} {e : Ast.Expr} {v : UInt64}
    (h : Gives raw found e.leaves t v t') : EvaluatesTo raw found e v := ⟨_, h.solved, h.value⟩

/-- A name that is found on demand has the value of its last define. -/
theorem evaluatesTo_of_solved {found : Table} {v : UInt64} (hnone : found.lookup name = none)
    (h : (equations (withValues found raw)).Solved name v) :
    ∃ e, raw.lookup name = some e ∧ EvaluatesTo raw found e v := by
  obtain ⟨hrhs, hrefs⟩ := h
  refine ⟨_, ?_, _, hrefs, rfl⟩
  have hlookup : (withValues found raw).lookup name = _ := lookup_withValues found name
  rw [hnone, Option.map_none, Option.none_or] at hlookup
  exact hlookup.symm.trans hrhs

section Found

variable {left : ℕ} {d : String × Ast.Expr} {pre rest : List (String × Ast.Expr)} {t t' : Table}

theorem resolveDefines_cons (h : resolveDefines raw left (d :: pre) t = .ok t') :
    ∃ t₁, resolveDefines raw left [d] t = .ok t₁ ∧ resolveDefines raw left pre t₁ = .ok t' := by
  rw [← List.singleton_append, resolveDefines_append] at h
  simpa only [bind_eq_ok] using h

theorem foundIn_append (h : resolveDefines raw left pre t = .ok t')
    (hnone : t'.lookup name = none) :
    foundIn raw left name (pre ++ rest) t = foundIn raw left name rest t' := by
  induction pre generalizing t with
  | nil =>
    obtain rfl : t = t' := by simpa [resolveDefines, pure, Except.pure] using h
    rfl
  | cons d pre ih =>
    obtain ⟨t₁, hd, hpre⟩ := resolveDefines_cons h
    have hnone₁ : t₁.lookup name = none := by
      rcases hlookup : t₁.lookup name with _ | v
      · rfl
      · cases hnone.symm.trans (resolveDefines_keeps hpre name v hlookup)
    rw [List.cons_append, foundIn, hd]
    simp only [hnone₁, Option.isSome_none, Bool.false_eq_true, if_false]
    exact ih hpre

/-- A name that some define leads to before its own first one. -/
theorem foundIn_onDemand {v : UInt64} (hne : ∀ d ∈ pre, d.1 ≠ name) (ht : t.lookup name = none)
    (h : resolveDefines raw left pre t = .ok t') (hv : t'.lookup name = some v) :
    ∃ e, raw.lookup name = some e ∧
      EvaluatesTo raw (foundIn raw left name (pre ++ rest) t) e v := by
  induction pre generalizing t with
  | nil =>
    obtain rfl : t = t' := by simpa [resolveDefines, pure, Except.pure] using h
    cases ht.symm.trans hv
  | cons d pre ih =>
    obtain ⟨m, e⟩ := d
    rw [List.forall_mem_cons] at hne
    obtain ⟨t₁, hd, hpre⟩ := resolveDefines_cons h
    rw [List.cons_append, foundIn, hd]
    rcases hlookup : t₁.lookup name with _ | w
    · simp only [hlookup, Option.isSome_none, Bool.false_eq_true, if_false]
      exact ih hne.2 hlookup hpre
    simp only [hlookup, Option.isSome_some, if_true]
    obtain rfl : w = v := Option.some.inj ((resolveDefines_keeps hpre name w hlookup).symm.trans hv)
    unfold resolveDefines at hd
    split at hd
    · obtain rfl : t = t₁ := by simpa [resolveDefines, pure, Except.pure] using hd
      cases ht.symm.trans hlookup
    · simp only [bind_eq_ok] at hd
      obtain ⟨⟨u, t₂⟩, he, hd⟩ := hd
      obtain rfl : (m, u) :: t₂ = t₁ := by simpa [resolveDefines, pure, Except.pure] using hd
      rw [lookup_cons_ite, if_neg (Ne.symm hne.1)] at hlookup
      have hgives : Gives raw t e.leaves t u t₂ :=
        resolveDefineExpr_gives (resolveDefine_gives left []) .start he
      exact evaluatesTo_of_solved ht (hgives.sound.solved name w hlookup)

end Found

theorem exists_before : ∀ {l : List (String × Ast.Expr)}, name ∈ l.map Prod.fst →
    ∃ e rest, l = before name l ++ (name, e) :: rest
  | (m, e) :: l, h => by
    unfold before
    by_cases hm : m = name
    · subst hm
      exact ⟨e, l, by simp⟩
    · obtain ⟨e', rest, heq⟩ := exists_before (l := l)
        (by simpa [Ne.symm hm] using h)
      unfold before at heq
      refine ⟨e', rest, ?_⟩
      rw [List.takeWhile_cons_of_pos (by simpa using hm), List.cons_append, ← heq]

theorem before_ne {l : List (String × Ast.Expr)} : ∀ d ∈ before name l, d.1 ≠ name := fun d hd => by
  simpa using List.mem_takeWhile_imp hd

theorem bindingsOf_before (l : List (String × Ast.Expr)) :
    bindingsOf name (before name l) = [] := by
  unfold bindingsOf
  rw [List.map_eq_nil_iff, List.filter_eq_nil_iff]
  intro d hd
  simpa using before_ne d hd

/-- The table has the value of the define that counts. -/
theorem lookup_winningDefine {file : Ast.PolicyFile} {r : Resolver}
    (hnew : Resolver.new file = .ok r) (hname : name ∈ file.defines.map Prod.fst) :
    ∃ e v, (bindingsOf name file.defines)[winningDefine file.defines name]? = some e ∧
      EvaluatesTo file.defines.reverse (tableAt file.defines name) e v ∧
      r.defines.lookup name = some v := by
  have hloop := Resolver.defines_of_new hnew
  obtain ⟨e₁, rest, hsplit⟩ := exists_before hname
  have hbindings : bindingsOf name file.defines = e₁ :: bindingsOf name rest := by
    rw [hsplit, bindingsOf_append, bindingsOf_before]
    simp [bindingsOf]
  obtain ⟨t, ht, hrest⟩ : ∃ t, resolveDefines file.defines.reverse file.defines.length
      (before name file.defines) [] = .ok t ∧ resolveDefines file.defines.reverse
        file.defines.length ((name, e₁) :: rest) t = .ok r.defines := by
    have hsplit' := @resolveDefines_append file.defines.reverse file.defines.length
      (before name file.defines) ((name, e₁) :: rest) []
    rw [← hsplit, hloop] at hsplit'
    simpa only [bind_eq_ok] using hsplit'.symm
  have hearly : reachedEarly file.defines name = (t.lookup name).isSome := by
    unfold reachedEarly
    rw [ht]
  have htable : tableAt file.defines name = foundIn file.defines.reverse file.defines.length name
      (before name file.defines ++ (name, e₁) :: rest) [] :=
    congrArg (fun l => foundIn file.defines.reverse file.defines.length name l []) hsplit
  unfold winningDefine
  rw [hearly, htable]
  rcases hlookup : t.lookup name with _ | v
  · rw [foundIn_append ht hlookup]
    obtain ⟨t₁, hfirst, hlast⟩ := resolveDefines_cons hrest
    have hinsert := hfirst
    unfold resolveDefines at hinsert
    simp only [hlookup, bind_eq_ok] at hinsert
    obtain ⟨⟨v, t₂⟩, he, hinsert⟩ := hinsert
    obtain rfl : (name, v) :: t₂ = t₁ := by simpa [resolveDefines, pure, Except.pure] using hinsert
    have hgives : Gives file.defines.reverse t e₁.leaves t v t₂ :=
      resolveDefineExpr_gives (resolveDefine_gives _ []) .start he
    have hfound : foundIn file.defines.reverse file.defines.length name ((name, e₁) :: rest) t =
        t := by
      rw [foundIn, hfirst]
      simp
    rw [hfound]
    exact ⟨e₁, v, by simp [hbindings], hgives.evaluatesTo,
      resolveDefines_keeps hlast name v (by simp)⟩
  · obtain ⟨e, he, hv⟩ := foundIn_onDemand before_ne rfl ht hlookup
    rw [lookup_reverse_eq_getLast?, List.getLast?_eq_getElem?] at he
    exact ⟨e, v, by simpa using he, hv, resolveDefines_keeps hrest name v hlookup⟩

end Value

/-! ## A name nothing can refer to -/

section Avoids

variable {raw : List (String × Ast.Expr)} {name : String}

/-- A name whose define refers to the name itself is never found on demand. -/
theorem resolveDefine_avoids {left : ℕ} {path : List String}
    (hself : name ∈ path ∨ ∃ e, raw.lookup name = some e ∧ name ∈ e.names) (m : String)
    (span : Span) (t : Table) (v : UInt64) (t' : Table) (ht : t.lookup name = none)
    (h : resolveDefine raw left path m span t = .ok (v, t')) :
    t'.lookup name = none ∧ m ≠ name := by
  induction left generalizing path m span t v t' with
  | zero =>
    obtain ⟨e, left', t₁, -, hleft, -⟩ := resolveDefine_inv h
    omega
  | succ left ih =>
    obtain ⟨e, _, t₁, hpath, ⟨⟩, hlookup, he, rfl⟩ := resolveDefine_inv h
    have hbound : ∀ (t : Table) (m : String) (v : UInt64), t.lookup name = none →
        t.lookup m = some v → m ≠ name := by
      rintro t m v ht hv rfl
      simp [ht] at hv
    by_cases hm : m = name
    · subst hm
      obtain ⟨e', he', hmem⟩ := hself.resolve_left hpath
      obtain rfl := Option.some.inj (hlookup.symm.trans he')
      obtain ⟨leaf, hleaf, hname⟩ := List.mem_filterMap.1 hmem
      obtain rfl := Sum.getRight?_eq_some_iff.1 hname
      have := (resolveDefineExpr_invariant (I := fun t => t.lookup m = none) (Q := (· ≠ m))
        (fun m' span t v t' ht _ hok =>
          ih (.inl List.mem_cons_self) m' span t v t' ht hok) hbound ht he).2 m hleaf
      exact absurd rfl this
    · have hself' := hself.imp_left (List.mem_cons_of_mem m)
      have := (resolveDefineExpr_invariant (I := fun t => t.lookup name = none) (Q := (· ≠ name))
        (fun m' span t v t' ht _ hok => ih hself' m' span t v t' ht hok) hbound ht he).1
      refine ⟨?_, hm⟩
      rwa [lookup_cons_ite, if_neg (Ne.symm hm)]

theorem resolveDefines_avoids {left : ℕ}
    (hself : ∃ e, raw.lookup name = some e ∧ name ∈ e.names) :
    ∀ {rest : List (String × Ast.Expr)} {t t' : Table}, (∀ d ∈ rest, d.1 ≠ name) →
    t.lookup name = none → resolveDefines raw left rest t = .ok t' → t'.lookup name = none
  | [], t, t', _, ht, h => by
    obtain rfl : t = t' := by simpa [resolveDefines, pure, Except.pure] using h
    exact ht
  | (m, e) :: rest, t, t', hne, ht, h => by
    rw [List.forall_mem_cons] at hne
    unfold resolveDefines at h
    split at h
    · exact resolveDefines_avoids hself hne.2 ht h
    · simp only [bind_eq_ok] at h
      obtain ⟨⟨v, t₁⟩, he, h⟩ := h
      have ht₁ := (resolveDefineExpr_invariant (I := fun t => t.lookup name = none)
        (Q := fun _ => True) (fun m span t v t' ht _ hok =>
          ⟨(resolveDefine_avoids (.inr hself) m span t v t' ht hok).1, trivial⟩)
        (fun _ _ _ _ _ => trivial) ht he).1
      refine resolveDefines_avoids hself hne.2 ?_ h
      rw [lookup_cons_ite, if_neg (Ne.symm hne.1), ht₁]

/-- The last define of the name refers to the name itself. -/
def LastIsSelf (bindings : List Ast.Expr) (name : String) : Prop :=
  ∃ e, bindings.getLast? = some e ∧ name ∈ e.names

theorem winningDefine_of_lastIsSelf {defines : List (String × Ast.Expr)}
    (h : LastIsSelf (bindingsOf name defines) name) : winningDefine defines name = 0 := by
  obtain ⟨e, he, hmem⟩ := h
  rw [← lookup_reverse_eq_getLast?] at he
  have hearly : reachedEarly defines name = false := by
    unfold reachedEarly
    rcases ht : resolveDefines defines.reverse defines.length (before name defines) []
      with e | t
    · rfl
    · have : t.lookup name = none := by
        refine resolveDefines_avoids ⟨_, he, hmem⟩ (fun d hd => ?_) rfl ht
        simpa using List.mem_takeWhile_imp hd
      simp [this]
  unfold winningDefine
  rw [hearly]
  rfl

end Avoids

/-! ## Defines with given bindings of a name -/

section Companions

variable {name : String} {bindings : List Ast.Expr} {pre : List (String × Ast.Expr)}

/-- The other names of the bindings, as zero. -/
def companions (name : String) (bindings : List Ast.Expr) : List (String × Ast.Expr) :=
  ((bindings.flatMap Ast.Expr.names).filter (· ≠ name)).map fun m => (m, .number 0)

/-- The bindings of the name, the other names behind them, and `pre` in front. -/
def definesWith (pre : List (String × Ast.Expr)) (name : String) (bindings : List Ast.Expr) :
    List (String × Ast.Expr) :=
  pre ++ (bindings.map (fun e => (name, e)) ++ companions name bindings)

theorem bindingsOf_companions : bindingsOf name (companions name bindings) = [] := by
  unfold bindingsOf companions
  rw [List.map_eq_nil_iff, List.filter_eq_nil_iff]
  rintro d hd
  obtain ⟨m, hm, rfl⟩ := List.mem_map.1 hd
  simpa using (List.mem_filter.1 hm).2

theorem bindingsOf_definesWith (hpre : bindingsOf name pre = []) :
    bindingsOf name (definesWith pre name bindings) = bindings := by
  have hown : bindingsOf name (bindings.map fun e => (name, e)) = bindings := by
    unfold bindingsOf
    rw [List.filter_eq_self.2 (by simp), List.map_map]
    exact List.map_id _
  unfold definesWith
  rw [bindingsOf_append, bindingsOf_append, hpre, hown, bindingsOf_companions]
  simp

theorem lookup_companion {m : String} (hm : m ∈ bindings.flatMap Ast.Expr.names) (hne : m ≠ name) :
    (definesWith pre name bindings).reverse.lookup m = some (.number 0) := by
  have hmem : m ∈ (companions name bindings).map Prod.fst := by
    unfold companions
    rw [List.map_map]
    exact List.mem_map.2 ⟨m, List.mem_filter.2 ⟨hm, by simpa using hne⟩, rfl⟩
  obtain ⟨e, he⟩ : ∃ e, (bindingsOf m (companions name bindings)).getLast? = some e :=
    ⟨_, List.getLast?_eq_some_getLast (bindingsOf_ne_nil.2 hmem)⟩
  rw [lookup_reverse_eq_getLast?]
  unfold definesWith
  rw [bindingsOf_append, bindingsOf_append, List.getLast?_append, List.getLast?_append, he]
  have := List.mem_of_getLast? he
  unfold bindingsOf companions at this
  simp only [List.mem_map, List.mem_filter] at this
  obtain ⟨d, ⟨⟨_, -, rfl⟩, -⟩, rfl⟩ := this
  rfl

variable {last : Ast.Expr} (hlast : bindings.getLast? = some last) (hself : name ∉ last.names)
  (hpre : bindingsOf name pre = []) (hrefs : ∀ d ∈ pre, ∀ m ∈ d.2.names, m = name)
include hlast hself hpre

theorem grounded_definesWith {m : String} (hm : m = name ∨ m ∈ bindings.flatMap Ast.Expr.names) :
    (equations (definesWith pre name bindings).reverse).Grounded m := by
  have hname : (definesWith pre name bindings).reverse.lookup name = some last := by
    rw [lookup_reverse_eq_getLast?, bindingsOf_definesWith hpre, hlast]
  -- Another name is a number, and refers to nothing.
  have hleaf : ∀ m ∈ bindings.flatMap Ast.Expr.names, m ≠ name →
      (equations (definesWith pre name bindings).reverse).Solved m
        (orOf (fun _ => 0) [.inl 0]) := by
    intro m hm hne
    refine @Equations.Solved.intro _ _ _ _ m (Ast.Expr.number 0) _ (lookup_companion hm hne) ?_
    rintro _ ⟨⟩
  by_cases hne : m = name
  · subst hne
    refine (@Equations.Solved.intro _ _ _ _ m last (fun _ => orOf (fun _ => 0) [.inl 0]) hname
      fun m' hm' => ?_).grounded
    refine hleaf m' (List.mem_flatMap.2 ⟨last, List.mem_of_getLast? hlast, hm'⟩) ?_
    rintro rfl
    exact hself hm'
  · exact (hleaf m (hm.resolve_left hne) hne).grounded

include hrefs

theorem new_definesWith :
    ∃ r, Resolver.new { defines := definesWith pre name bindings } = .ok r := by
  refine Resolver.new_ok_iff.2 (resolveDefines_ok (room_defines _) (fun d hd m hm => ?_) [])
  refine grounded_definesWith hlast hself hpre ?_
  unfold definesWith at hd
  rcases List.mem_append.1 hd with hd | hd
  · exact .inl (hrefs d hd m hm)
  rcases List.mem_append.1 hd with hd | hd
  · obtain ⟨e, he, rfl⟩ := List.mem_map.1 hd
    exact .inr (List.mem_flatMap.2 ⟨e, he, hm⟩)
  · unfold companions at hd
    obtain ⟨k, -, rfl⟩ := List.mem_map.1 hd
    simp [Ast.Expr.names, Ast.Expr.leaves] at hm

end Companions

section Winners

variable {name : String} {bindings : List Ast.Expr} {last : Ast.Expr}

/-- A define that refers to the name. -/
def referrer (name : String) : String × Ast.Expr := (name ++ "'", .ident name ⟨0, 0⟩)

theorem referrer_ne (name : String) : (referrer name).1 ≠ name := by
  intro h
  have := congrArg String.length h
  simp [referrer, String.length_append] at this

theorem bindingsOf_referrer (name : String) : bindingsOf name [referrer name] = [] := by
  simp [bindingsOf, referrer_ne]

theorem winningDefine_first (hne : bindings ≠ []) :
    winningDefine (definesWith [] name bindings) name = 0 := by
  obtain ⟨e, rest, rfl⟩ := List.exists_cons_of_ne_nil hne
  have hbefore : before name (definesWith [] name (e :: rest)) = [] := by
    simp [before, definesWith]
  have hearly : reachedEarly (definesWith [] name (e :: rest)) name = false := by
    unfold reachedEarly
    rw [hbefore]
    rfl
  unfold winningDefine
  rw [hearly]
  rfl

theorem winningDefine_last (hlast : bindings.getLast? = some last) (hself : name ∉ last.names) :
    winningDefine (definesWith [referrer name] name bindings) name = bindings.length - 1 := by
  obtain ⟨e, rest, rfl⟩ :=
    List.exists_cons_of_ne_nil (List.ne_nil_of_mem (List.mem_of_getLast? hlast))
  have hbefore : before name (definesWith [referrer name] name (e :: rest)) = [referrer name] := by
    simp [before, definesWith, referrer_ne]
  have hearly : reachedEarly (definesWith [referrer name] name (e :: rest)) name = true := by
    unfold reachedEarly
    rw [hbefore]
    generalize hdefines : definesWith [referrer name] name (e :: rest) = defines
    obtain ⟨t, ht⟩ := @resolveDefines_ok _ _ (room_defines defines) [referrer name]
      (fun d hd m hm => by
        obtain rfl := List.mem_singleton.1 hd
        obtain rfl : m = name := by simpa [referrer, Ast.Expr.names, Ast.Expr.leaves] using hm
        exact hdefines ▸ grounded_definesWith hlast hself (bindingsOf_referrer m) (.inl rfl)) []
    rw [ht]
    unfold resolveDefines referrer at ht
    simp only [List.lookup_nil, bind_eq_ok] at ht
    obtain ⟨⟨v, t₁⟩, he, ht⟩ := ht
    obtain rfl : (name ++ "'", v) :: t₁ = t := by
      simpa [resolveDefines, pure, Except.pure] using ht
    obtain ⟨w, hw⟩ := (resolveDefineExpr_gives (resolveDefine_gives defines.length [])
      .start he).knows name (by simp [Ast.Expr.leaves])
    have hreferrer : name ≠ name ++ "'" := Ne.symm (referrer_ne name)
    show (List.lookup name ((name ++ "'", v) :: t₁)).isSome = true
    rw [lookup_cons_ite, if_neg hreferrer, hw]
    rfl
  unfold winningDefine
  rw [hearly, if_pos rfl, bindingsOf_definesWith (bindingsOf_referrer name)]

end Winners

/-! ## Prelude, main text and includes -/

/-- The bindings of the merged file by where they stand. -/
structure Sources where
  preludeDefines : List (String × Ast.Expr) := []
  mainDefines : List (String × Ast.Expr) := []
  includedDefines : List (String × Ast.Expr) := []
  preludePolicies : List Ast.Policy := []
  mainPolicies : List Ast.Policy := []
  includedPolicies : List Ast.Policy := []

namespace Sources

variable (s : Sources)

def defines : List (String × Ast.Expr) := s.preludeDefines ++ (s.mainDefines ++ s.includedDefines)

def policies : List Ast.Policy := s.preludePolicies ++ (s.mainPolicies ++ s.includedPolicies)

/-- Where the bindings come from: the main text, its includes, and the prelude with its own. -/
structure Of (b : Build) (pest : Pest) (policyText : List Char) (options : CompileOptions) :
    Prop where
  main : ∃ own, Parser.parseText b pest policyText = .ok own ∧ s.mainDefines = own.defines ∧
    s.mainPolicies = own.policies ∧
    ExpandsAll b pest options none own.includes s.includedDefines s.includedPolicies
  prelude : (options.prelude = none ∧ s.preludeDefines = [] ∧ s.preludePolicies = []) ∨
    ∃ text, options.prelude = some text ∧
      Expands b pest options none text s.preludeDefines s.preludePolicies

/-- The place is one of the main text's, behind those of the prelude. -/
def InMain {α : Type} (name : String) (prelude main : List (String × α)) (place : ℕ) : Prop :=
  (bindingsOf name prelude).length ≤ place ∧
    place < (bindingsOf name prelude).length + (bindingsOf name main).length

def named (policies : List Ast.Policy) : List (String × Ast.Policy) :=
  policies.map fun p => (p.name, p)

/-- The main text's bindings win, of defines and of policies, and which define wins is settled by
the defines of its name: it is the same in every file that has them. -/
structure UniformPrecedence : Prop where
  defines : ∀ name ∈ s.mainDefines.map Prod.fst,
    InMain name s.preludeDefines s.mainDefines (winningDefine s.defines name)
  policies : ∀ name ∈ s.mainPolicies.map Ast.Policy.name,
    InMain name (named s.preludePolicies) (named s.mainPolicies) (winningPolicy s.policies name)
  independent : ∀ name (file : Ast.PolicyFile), (∃ r, Resolver.new file = .ok r) →
    bindingsOf name file.defines = bindingsOf name s.defines →
    winningDefine file.defines name = winningDefine s.defines name

/-- No include binds a policy of the main text again, and no define is bound twice, unless its last
binding refers to the name itself and the prelude has none that the main text binds as well. -/
structure BoundApart : Prop where
  policies : ∀ name ∈ s.mainPolicies.map Ast.Policy.name,
    name ∉ s.includedPolicies.map Ast.Policy.name
  defines : ∀ name, 1 < (bindingsOf name s.defines).length →
    LastIsSelf (bindingsOf name s.defines) name ∧
      (name ∈ s.mainDefines.map Prod.fst → name ∉ s.preludeDefines.map Prod.fst)

variable {s}

theorem length_bindings (name : String) : (bindingsOf name s.defines).length =
    (bindingsOf name s.preludeDefines).length + ((bindingsOf name s.mainDefines).length +
      (bindingsOf name s.includedDefines).length) := by
  unfold defines
  rw [bindingsOf_append, bindingsOf_append, List.length_append, List.length_append]

theorem length_pos_iff {α : Type} {name : String} {l : List (String × α)} :
    0 < (bindingsOf name l).length ↔ name ∈ l.map Prod.fst := by
  rw [List.length_pos_iff, bindingsOf_ne_nil]

theorem winningDefine_eq_zero {defines : List (String × Ast.Expr)} {name : String}
    (h : (bindingsOf name defines).length ≤ 1) : winningDefine defines name = 0 := by
  unfold winningDefine
  split_ifs <;> omega

/-- A name bound twice has one winner only when its last binding refers to itself. -/
theorem UniformPrecedence.lastIsSelf (h : s.UniformPrecedence) {name : String}
    (hname : 1 < (bindingsOf name s.defines).length) :
    LastIsSelf (bindingsOf name s.defines) name := by
  have hne : bindingsOf name s.defines ≠ [] := List.length_pos_iff.1 (by omega)
  have hlast := List.getLast?_eq_some_getLast hne
  refine ⟨_, hlast, ?_⟩
  by_contra hself
  have hfirst := h.independent name _
    (@new_definesWith _ _ [] _ hlast hself rfl (by simp)) (bindingsOf_definesWith rfl)
  have hreferred := h.independent name _ (new_definesWith hlast hself (bindingsOf_referrer name)
    (by simp [referrer, Ast.Expr.names, Ast.Expr.leaves]))
    (bindingsOf_definesWith (bindingsOf_referrer name))
  rw [winningDefine_first hne] at hfirst
  rw [winningDefine_last hlast hself] at hreferred
  omega

theorem mem_named {name : String} {policies : List Ast.Policy} :
    name ∈ (named policies).map Prod.fst ↔ name ∈ policies.map Ast.Policy.name := by
  simp [named]

theorem uniformPrecedence_iff_boundApart : s.UniformPrecedence ↔ s.BoundApart := by
  have hpolicies (name : String) : winningPolicy s.policies name =
      (bindingsOf name (named s.preludePolicies)).length +
        ((bindingsOf name (named s.mainPolicies)).length +
          (bindingsOf name (named s.includedPolicies)).length) - 1 := by
    unfold winningPolicy policies
    rw [List.map_append, List.map_append, bindingsOf_append, bindingsOf_append,
      List.length_append, List.length_append]
    rfl
  constructor
  · intro h
    refine ⟨fun name hmain hincluded => ?_, fun name hname => ?_⟩
    · have hlt := (h.policies name hmain).2
      rw [hpolicies] at hlt
      have := length_pos_iff.2 (mem_named.2 hincluded)
      omega
    · have hself := h.lastIsSelf hname
      refine ⟨hself, fun hmain hprelude => ?_⟩
      have hle := (h.defines name hmain).1
      rw [winningDefine_of_lastIsSelf hself] at hle
      have := length_pos_iff.2 hprelude
      omega
  · intro h
    have hzero (name : String) : winningDefine s.defines name = 0 := by
      by_cases hname : 1 < (bindingsOf name s.defines).length
      · exact winningDefine_of_lastIsSelf (h.defines name hname).1
      · exact winningDefine_eq_zero (by omega)
    refine ⟨fun name hmain => ?_, fun name hmain => ?_, fun name file _ hbindings => ?_⟩
    · have hpos := length_pos_iff.2 hmain
      have hlen := length_bindings (s := s) name
      unfold InMain
      rw [hzero]
      by_cases hname : 1 < (bindingsOf name s.defines).length
      · have := mt length_pos_iff.1 ((h.defines name hname).2 hmain)
        omega
      · omega
    · have hpos := length_pos_iff.2 (mem_named.2 hmain)
      have hnone := mt (mem_named.1 ∘ length_pos_iff.1) (h.policies name hmain)
      unfold InMain
      rw [hpolicies]
      omega
    · rw [hzero]
      by_cases hname : 1 < (bindingsOf name s.defines).length
      · exact winningDefine_of_lastIsSelf (hbindings ▸ (h.defines name hname).1)
      · exact winningDefine_eq_zero (by rw [hbindings]; omega)

end Sources

/-! ## Accepted texts -/

section Accepted

variable {b : Build} {pest : Pest} {policyText : List Char} {options : CompileOptions}

theorem mergedFile_sources {file : Ast.PolicyFile}
    (h : mergedFile b pest policyText options = .ok file) :
    ∃ s : Sources, s.Of b pest policyText options ∧ file.defines = s.defines ∧
      file.policies = s.policies := by
  simp only [mergedFile, bind_eq_ok] at h
  obtain ⟨⟨main, seen⟩, hmain, h⟩ := h
  obtain ⟨own, defines, policies, hown, hall, hdefines, hpolicies⟩ :=
    parseWithIncludes_expands hmain
  rcases hprelude : options.prelude with _ | preludeText
  · simp only [hprelude] at h
    obtain rfl : main = file := by simpa [pure, Except.pure] using h
    refine ⟨⟨[], own.defines, defines, [], own.policies, policies⟩,
      ⟨⟨own, hown, rfl, rfl, hall⟩, .inl ⟨hprelude, rfl, rfl⟩⟩, ?_, ?_⟩
    · exact hdefines
    · exact hpolicies
  · simp only [hprelude, bind_eq_ok] at h
    obtain ⟨⟨prelude, seen'⟩, hrun, h⟩ := h
    obtain rfl : mergePrelude prelude main = file := by simpa [pure, Except.pure] using h
    obtain ⟨own', defines', policies', hown', hall', hdefines', hpolicies'⟩ :=
      parseWithIncludes_expands hrun
    refine ⟨⟨prelude.defines, own.defines, defines, prelude.policies, own.policies, policies⟩,
      ⟨⟨own, hown, rfl, rfl, hall⟩, .inr ⟨preludeText, hprelude, ?_⟩⟩, ?_, ?_⟩
    · rw [hdefines', hpolicies']
      exact .intro hown' hall'
    · simp [mergePrelude, Sources.defines, hdefines]
    · simp [mergePrelude, Sources.policies, hpolicies]

end Accepted

/-- Of an accepted text the table has the value of the define that counts and the index the policy
that counts; these are uniformly the main text's exactly when the bindings are apart. -/
theorem parsePolicy_precedence_iff {b : Build} {pest : Pest} {policyText : List Char}
    {options : CompileOptions} {policy : Policy}
    (h : parsePolicy b pest policyText options = .ok policy) :
    ∃ (s : Sources) (file : Ast.PolicyFile) (r : Resolver), s.Of b pest policyText options ∧
      mergedFile b pest policyText options = .ok file ∧ Resolver.new file = .ok r ∧
      (∀ name ∈ s.defines.map Prod.fst, ∃ e v,
        (bindingsOf name s.defines)[winningDefine s.defines name]? = some e ∧
        EvaluatesTo s.defines.reverse (tableAt s.defines name) e v ∧
        r.defines.lookup name = some v) ∧
      (∀ name, r.policies.lookup name =
        (bindingsOf name (Sources.named s.policies))[winningPolicy s.policies name]?) ∧
      (s.UniformPrecedence ↔ s.BoundApart) := by
  simp only [parsePolicy, bind_eq_ok] at h
  obtain ⟨file, hfile, ⟨⟩, -, hresolve⟩ := h
  simp only [resolve, bind_eq_ok] at hresolve
  obtain ⟨r, hnew, -⟩ := hresolve
  obtain ⟨s, hof, hdefines, hpolicies⟩ := mergedFile_sources hfile
  refine ⟨s, file, r, hof, hfile, hnew, ?_, fun name => ?_,
    Sources.uniformPrecedence_iff_boundApart⟩
  · rw [← hdefines]
    exact fun name hname => lookup_winningDefine hnew hname
  · rw [Resolver.policies_of_new hnew, lookup_reverse_eq_getLast?, List.getLast?_eq_getElem?,
      hpolicies]
    rfl

def twiceOptions : CompileOptions := { prelude := some "#define A 1".toList }

def twiceText : List Char :=
  "#define A 2\nPOLICY p { ALLOW { write(f) { f == A } } } USE p DEFAULT KILL".toList

theorem own_of_parseText {text : List Char} {own : Ast.PolicyFile} {names : List String}
    (hnames : ((Parser.parseText .debug (Pest.interpreter silentError) text).toOption.map
      fun f => (f.includes.length, f.defines.map Prod.fst)) = some (0, names))
    (hown : Parser.parseText .debug (Pest.interpreter silentError) text = .ok own) :
    own.includes = [] ∧ own.defines.map Prod.fst = names := by
  rw [hown] at hnames
  simpa [Except.toOption] using hnames

/-- The define of the prelude counts, not that of the main text. -/
theorem twiceText_not_uniformPrecedence :
    (parsePolicy .debug (Pest.interpreter silentError) twiceText twiceOptions).toOption.isSome ∧
    ((mergedFile .debug (Pest.interpreter silentError) twiceText twiceOptions
      >>= Resolver.new).toOption.bind fun r => r.defines.lookup "A") = some 1 ∧
    ∀ s : Sources, s.Of .debug (Pest.interpreter silentError) twiceText twiceOptions →
      ¬ s.UniformPrecedence := by
  refine ⟨by decide +kernel, by decide +kernel, fun s hof h => ?_⟩
  obtain ⟨own, hown, hmain, -, -⟩ := hof.main
  obtain ⟨-, hmainNames⟩ := @own_of_parseText _ _ ["A"] (by decide +kernel) hown
  obtain ⟨text, htext, hprelude⟩ := hof.prelude.resolve_left fun hnone => by
    simp [twiceOptions] at hnone
  obtain rfl := Option.some.inj htext
  obtain ⟨file, defines', policies', hfile, hall, hdefines, -⟩ := hprelude.inv
  obtain ⟨hincludes, hpreludeNames⟩ := @own_of_parseText _ _ ["A"] (by decide +kernel) hfile
  rw [hincludes] at hall
  obtain ⟨rfl, -⟩ := expandsAll_nil hall
  rw [List.append_nil] at hdefines
  rw [← hdefines] at hpreludeNames
  -- The first define of the merged file is that of `A` in the prelude.
  obtain ⟨⟨name, e⟩, rest, hprelude⟩ : ∃ d rest, s.preludeDefines = d :: rest :=
    List.exists_cons_of_ne_nil fun hnil => by simp [hnil] at hpreludeNames
  rw [hprelude, List.map_cons, List.cons.injEq] at hpreludeNames
  obtain rfl : name = "A" := hpreludeNames.1
  have hle := (h.defines "A" (by rw [hmain, hmainNames]; simp)).1
  have hbefore : before "A" s.defines = [] := by
    simp [before, Sources.defines, hprelude]
  have hearly : reachedEarly s.defines "A" = false := by
    unfold reachedEarly
    rw [hbefore]
    rfl
  rw [winningDefine, hearly, hprelude] at hle
  simp [bindingsOf] at hle

theorem twiceText_precedence_iff :
    ∃ (s : Sources) (file : Ast.PolicyFile) (r : Resolver),
      s.Of .debug (Pest.interpreter silentError) twiceText twiceOptions ∧
      mergedFile .debug (Pest.interpreter silentError) twiceText twiceOptions = .ok file ∧
      Resolver.new file = .ok r ∧
      (∀ name ∈ s.defines.map Prod.fst, ∃ e v,
        (bindingsOf name s.defines)[winningDefine s.defines name]? = some e ∧
        EvaluatesTo s.defines.reverse (tableAt s.defines name) e v ∧
        r.defines.lookup name = some v) ∧
      (∀ name, r.policies.lookup name =
        (bindingsOf name (Sources.named s.policies))[winningPolicy s.policies name]?) ∧
      (s.UniformPrecedence ↔ s.BoundApart) := by
  rcases h : parsePolicy .debug (Pest.interpreter silentError) twiceText twiceOptions with
    e | policy
  · have hok : (parsePolicy .debug (Pest.interpreter silentError) twiceText
        twiceOptions).toOption.isSome := by decide +kernel
    rw [h] at hok
    cases hok
  · exact parsePolicy_precedence_iff h

end Pnut.Kafel
