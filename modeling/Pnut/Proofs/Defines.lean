import Pnut.Kafel.Resolve
import Pnut.Lib.Equations
import Pnut.Lib.SortedMap

/-!
# What a define is worth

The defines of a file are a system of equations: a name is the bitwise OR of the leaves of its
expression. The resolver searches depth first and keeps what it has found. Whatever its table binds
is the solution, and it fails only at a name that is not defined or is in progress, hence on a
cycle.
-/

namespace Pnut.Kafel

open Relation (ReflTransGen TransGen)

/-! ## The equations -/

mutual

/-- The leaves of an expression: numbers and names. -/
def Ast.Expr.leaves : Ast.Expr → List (UInt64 ⊕ String)
  | .number n => [.inl n]
  | .ident name _ => [.inr name]
  | .bitOr parts => Ast.Expr.leavesOfParts parts

def Ast.Expr.leavesOfParts : List Ast.Expr → List (UInt64 ⊕ String)
  | [] => []
  | part :: parts => part.leaves ++ Ast.Expr.leavesOfParts parts

end

def Ast.Expr.numbers (e : Ast.Expr) : List UInt64 := e.leaves.filterMap Sum.getLeft?

def Ast.Expr.names (e : Ast.Expr) : List String := e.leaves.filterMap Sum.getRight?

/-- The bitwise OR of leaves. -/
def orOf (val : String → UInt64) (leaves : List (UInt64 ⊕ String)) : UInt64 :=
  leaves.foldr (fun leaf acc => leaf.elim id val ||| acc) 0

theorem orOf_append (val : String → UInt64) (l l' : List (UInt64 ⊕ String)) :
    orOf val (l ++ l') = orOf val l ||| orOf val l' := by
  induction l with
  | nil => simp [orOf]
  | cons leaf l ih =>
    unfold orOf at ih ⊢
    rw [List.cons_append, List.foldr_cons, List.foldr_cons, ih, UInt64.or_assoc]

theorem orOf_congr {val val' : String → UInt64} {l : List (UInt64 ⊕ String)}
    (h : ∀ leaf ∈ l, leaf.elim id val = leaf.elim id val') : orOf val l = orOf val' l := by
  unfold orOf
  induction l with
  | nil => rfl
  | cons leaf l ih =>
    rw [List.forall_mem_cons] at h
    rw [List.foldr_cons, List.foldr_cons, h.1, ih h.2]

/-- A name is the OR of the leaves of its expression. -/
def equations (defines : List (String × Ast.Expr)) : Equations String Ast.Expr UInt64 where
  rhs name := defines.lookup name
  refs := Ast.Expr.names
  eval val e := orOf val e.leaves
  eval_congr {val val' e} h := by
    refine orOf_congr fun leaf hleaf => ?_
    rcases leaf with n | name
    · rfl
    · exact h name (List.mem_filterMap.2 ⟨_, hleaf, rfl⟩)

/-! ## What the table binds -/

section Sound

variable {raw : List (String × Ast.Expr)} {found t t' t'' : Table}

/-- No binding is lost or changed. -/
def Keeps (t t' : Table) : Prop := ∀ name v, t.lookup name = some v → t'.lookup name = some v

/-- The defines, where the values of some names are found already. -/
def withValues (found : Table) (raw : List (String × Ast.Expr)) : List (String × Ast.Expr) :=
  found.map (fun d => (d.1, .number d.2)) ++ raw

theorem lookup_withValues (found : Table) (name : String) :
    (withValues found raw).lookup name =
      ((found.lookup name).map .number).or (raw.lookup name) := by
  induction found with
  | nil => rfl
  | cons d found ih =>
    obtain ⟨m, v⟩ := d
    unfold withValues at ih ⊢
    rw [List.map_cons, List.cons_append, lookup_cons_ite, lookup_cons_ite, ih]
    split_ifs <;> rfl

variable (raw found) in
/-- Every binding is the solution of its name, from the values that were found before. -/
structure Sound (t : Table) : Prop where
  keeps : Keeps found t
  solved : ∀ name v, t.lookup name = some v → (equations (withValues found raw)).Solved name v

/-- At first there is nothing but what was found. -/
theorem Sound.start : Sound raw found found where
  keeps _ _ hv := hv
  solved name v hv := by
    have hlookup : (withValues found raw).lookup name = some (.number v) := by
      rw [lookup_withValues, hv]
      rfl
    have hsolved : (equations (withValues found raw)).Solved name
        ((equations (withValues found raw)).eval (fun _ => 0) (.number v)) :=
      .intro hlookup fun m hm => by simp [equations, Ast.Expr.names, Ast.Expr.leaves] at hm
    simpa [equations, orOf, Ast.Expr.leaves] using hsolved

/-- A name without a value is read in the defines. -/
theorem Sound.lookup_eq {name : String} (h : Sound raw found t) (hnone : t.lookup name = none) :
    (withValues found raw).lookup name = raw.lookup name := by
  rw [lookup_withValues]
  cases hfound : found.lookup name with
  | none => rfl
  | some v => cases hnone.symm.trans (h.keeps name v hfound)

theorem Keeps.trans (h : Keeps t t') (h' : Keeps t' t'') : Keeps t t'' :=
  fun name v hv => h' name v (h name v hv)

/-- The value a table has for a name. -/
def valueOf (t : Table) (name : String) : UInt64 := (t.lookup name).getD 0

/-- The table has every name of the leaves. -/
def Knows (t : Table) (leaves : List (UInt64 ⊕ String)) : Prop :=
  ∀ name, .inr name ∈ leaves → ∃ v, t.lookup name = some v

theorem Keeps.orOf_eq {leaves : List (UInt64 ⊕ String)} (h : Keeps t t') (hk : Knows t leaves) :
    orOf (valueOf t') leaves = orOf (valueOf t) leaves := by
  refine orOf_congr fun leaf hleaf => ?_
  rcases leaf with n | name
  · rfl
  · obtain ⟨v, hv⟩ := hk name hleaf
    simp [valueOf, hv, h name v hv]

variable (raw found) in
/-- What a call that resolves leaves gives: their OR, and a table that has their names. -/
structure Gives (leaves : List (UInt64 ⊕ String)) (t : Table) (v : UInt64) (t' : Table) : Prop where
  sound : Sound raw found t'
  keeps : Keeps t t'
  knows : Knows t' leaves
  value : v = orOf (valueOf t') leaves

variable {define : String → Span → Table → Result (UInt64 × Table)}

mutual

theorem resolveDefineExpr_gives (hdefine : ∀ name span t v t', Sound raw found t →
      t.lookup name = none → define name span t = .ok (v, t') →
      Gives raw found [.inr name] t v t') :
    ∀ {e : Ast.Expr} {t t' : Table} {v : UInt64}, Sound raw found t →
    resolveDefineExpr define e t = .ok (v, t') → Gives raw found e.leaves t v t'
  | .number n, t, t', v, ht, h => by
    obtain ⟨rfl, rfl⟩ : n = v ∧ t = t' := by
      simpa [resolveDefineExpr, pure, Except.pure] using h
    exact ⟨ht, fun _ _ hv => hv, by simp [Knows, Ast.Expr.leaves], by simp [orOf, Ast.Expr.leaves]⟩
  | .ident name span, t, t', v, ht, h => by
    unfold resolveDefineExpr at h
    unfold Ast.Expr.leaves
    split at h
    · rename_i val hval
      obtain ⟨rfl, rfl⟩ : val = v ∧ t = t' := by simpa [pure, Except.pure] using h
      refine ⟨ht, fun _ _ hv => hv, fun m hm => ?_, ?_⟩
      · obtain rfl : m = name := by simpa using hm
        exact ⟨val, hval⟩
      · simp [orOf, valueOf, hval]
    · rename_i hnone
      exact hdefine name span t v t' ht hnone h
  | .bitOr parts, t, t', v, ht, h => by
    unfold resolveDefineExpr at h
    obtain ⟨w, hv, hgives⟩ := resolveDefineParts_gives hdefine ht h
    rw [UInt64.zero_or] at hv
    exact hv ▸ hgives

theorem resolveDefineParts_gives (hdefine : ∀ name span t v t', Sound raw found t →
      t.lookup name = none → define name span t = .ok (v, t') →
      Gives raw found [.inr name] t v t') :
    ∀ {parts : List Ast.Expr} {t t' : Table} {acc v : UInt64}, Sound raw found t →
    resolveDefineParts define acc parts t = .ok (v, t') →
    ∃ w, v = acc ||| w ∧ Gives raw found (Ast.Expr.leavesOfParts parts) t w t'
  | [], t, t', acc, v, ht, h => by
    obtain ⟨rfl, rfl⟩ : acc = v ∧ t = t' := by
      simpa [resolveDefineParts, pure, Except.pure] using h
    exact ⟨0, by simp, ht, fun _ _ hv => hv, by simp [Knows, Ast.Expr.leavesOfParts], rfl⟩
  | part :: parts, t, t', acc, v, ht, h => by
    simp only [resolveDefineParts, bind_eq_ok] at h
    obtain ⟨⟨x, t₁⟩, hpart, hparts⟩ := h
    have h₁ := resolveDefineExpr_gives hdefine ht hpart
    obtain ⟨w, rfl, h₂⟩ := resolveDefineParts_gives hdefine h₁.sound hparts
    refine ⟨x ||| w, UInt64.or_assoc .., h₂.sound, h₁.keeps.trans h₂.keeps, ?_, ?_⟩
    · intro name hname
      unfold Ast.Expr.leavesOfParts at hname
      rcases List.mem_append.1 hname with hname | hname
      · obtain ⟨v, hv⟩ := h₁.knows name hname
        exact ⟨v, h₂.keeps name v hv⟩
      · exact h₂.knows name hname
    · unfold Ast.Expr.leavesOfParts
      rw [orOf_append, h₂.keeps.orOf_eq h₁.knows, ← h₁.value, ← h₂.value]

end

/-- A name is found when it is not in progress, has a define, and the define resolves. -/
theorem resolveDefine_inv {left : ℕ} {path : List String} {name : String} {span : Span} {v : UInt64}
    (h : resolveDefine raw left path name span t = .ok (v, t')) :
    ∃ e left' t₁, name ∉ path ∧ left = left' + 1 ∧ raw.lookup name = some e ∧
      resolveDefineExpr (resolveDefine raw left' (name :: path)) e t = .ok (v, t₁) ∧
      t' = (name, v) :: t₁ := by
  unfold resolveDefine at h
  split_ifs at h with hpath
  · simp at h
  split at h
  · simp at h
  · simp at h
  · rename_i e left' hlookup
    simp only [bind_eq_ok, pure, Except.pure, Except.ok.injEq, Prod.mk.injEq] at h
    obtain ⟨⟨w, t₁⟩, he, rfl, rfl⟩ := h
    exact ⟨e, left', t₁, hpath, rfl, hlookup, he, rfl⟩

/-- The values that an expression is made of solve its names. -/
theorem Gives.solved {e : Ast.Expr} {v : UInt64} (h : Gives raw found e.leaves t v t') :
    ∀ m ∈ e.names, (equations (withValues found raw)).Solved m (valueOf t' m) := by
  intro m hm
  obtain ⟨leaf, hleaf, hname⟩ := List.mem_filterMap.1 hm
  obtain ⟨w, hw⟩ := h.knows m (by rwa [← Sum.getRight?_eq_some_iff.1 hname])
  simpa [valueOf, hw] using h.sound.solved m w hw

/-- A solved define in front of the table its expression gave. -/
theorem Gives.bind {e : Ast.Expr} {v : UInt64} {name : String} (ht : Sound raw found t)
    (hnone : t.lookup name = none) (h : Gives raw found e.leaves t v t')
    (hlookup : raw.lookup name = some e) : Gives raw found [.inr name] t v ((name, v) :: t') := by
  have hsolved : (equations (withValues found raw)).Solved name v := by
    rw [h.value]
    exact .intro ((ht.lookup_eq hnone).trans hlookup) h.solved
  have hkeeps : Keeps t ((name, v) :: t') := fun m w hw => by
    have hne : m ≠ name := by
      rintro rfl
      cases hnone.symm.trans hw
    rw [lookup_cons_ite, if_neg hne]
    exact h.keeps m w hw
  refine ⟨⟨ht.keeps.trans hkeeps, fun m w hw => ?_⟩, hkeeps, fun m hm => ?_, ?_⟩
  · rw [lookup_cons_ite] at hw
    split_ifs at hw with hm
    · obtain rfl := Option.some.inj hw
      exact hm ▸ hsolved
    · exact h.sound.solved m w hw
  · obtain rfl : m = name := by simpa using hm
    exact ⟨v, by simp⟩
  · simp [orOf, valueOf]

theorem resolveDefine_gives : ∀ (left : ℕ) (path : List String) (name : String) (span : Span)
    (t : Table) (v : UInt64) (t' : Table), Sound raw found t → t.lookup name = none →
    resolveDefine raw left path name span t = .ok (v, t') → Gives raw found [.inr name] t v t'
  | 0, path, name, span, t, v, t', _, _, h => by
    obtain ⟨e, left', t₁, -, hleft, -⟩ := resolveDefine_inv h
    omega
  | left + 1, path, name, span, t, v, t', ht, hnone, h => by
    obtain ⟨e, _, t₁, -, ⟨⟩, hlookup, he, rfl⟩ := resolveDefine_inv h
    exact .bind ht hnone (resolveDefineExpr_gives (resolveDefine_gives left (name :: path)) ht he)
      hlookup

theorem resolveDefines_gives {left : ℕ} : ∀ {rest : List (String × Ast.Expr)} {t t' : Table},
    (∀ d ∈ rest, raw.lookup d.1 = some d.2) → Sound raw found t →
    resolveDefines raw left rest t = .ok t' →
    Sound raw found t' ∧ Keeps t t' ∧ ∀ d ∈ rest, ∃ v, t'.lookup d.1 = some v
  | [], t, t', _, ht, h => by
    obtain rfl : t = t' := by simpa [resolveDefines, pure, Except.pure] using h
    exact ⟨ht, fun _ _ hv => hv, by simp⟩
  | (name, e) :: rest, t, t', hraw, ht, h => by
    simp only [List.forall_mem_cons] at hraw ⊢
    unfold resolveDefines at h
    split at h
    · rename_i v hv
      obtain ⟨hsound, hkeeps, hrest⟩ := resolveDefines_gives hraw.2 ht h
      exact ⟨hsound, hkeeps, ⟨v, hkeeps name v hv⟩, hrest⟩
    · rename_i hnone
      simp only [bind_eq_ok] at h
      obtain ⟨⟨v, t₁⟩, he, h⟩ := h
      have h₁ := Gives.bind ht hnone
        (resolveDefineExpr_gives (resolveDefine_gives left []) ht he) hraw.1
      obtain ⟨hsound, hkeeps, hrest⟩ := resolveDefines_gives hraw.2 h₁.sound h
      exact ⟨hsound, h₁.keeps.trans hkeeps, ⟨v, hkeeps name v (by simp)⟩, hrest⟩

end Sound

/-! ## When the resolution succeeds -/

section Succeeds

variable {raw : List (String × Ast.Expr)} {P : String → Prop}
  {define : String → Span → Table → Result (UInt64 × Table)}

mutual

theorem resolveDefineExpr_ok : ∀ {e : Ast.Expr}, (∀ name, .inr name ∈ e.leaves → ∀ span t,
    ∃ out, define name span t = .ok out) → ∀ t, ∃ out, resolveDefineExpr define e t = .ok out
  | .number n, _, t => ⟨(n, t), rfl⟩
  | .ident name span, h, t => by
    unfold resolveDefineExpr
    split
    · exact ⟨_, rfl⟩
    · exact h name (by simp [Ast.Expr.leaves]) span t
  | .bitOr parts, h, t => by
    unfold resolveDefineExpr
    exact resolveDefineParts_ok h 0 t

theorem resolveDefineParts_ok : ∀ {parts : List Ast.Expr},
    (∀ name, .inr name ∈ Ast.Expr.leavesOfParts parts → ∀ span t,
      ∃ out, define name span t = .ok out) →
    ∀ acc t, ∃ out, resolveDefineParts define acc parts t = .ok out
  | [], _, acc, t => ⟨(acc, t), rfl⟩
  | part :: parts, h, acc, t => by
    unfold Ast.Expr.leavesOfParts at h
    obtain ⟨⟨v, t₁⟩, hpart⟩ := resolveDefineExpr_ok (e := part)
      (fun name hname => h name (List.mem_append_left _ hname)) t
    have hrest := fun name hname => h name (List.mem_append_right _ hname)
    obtain ⟨out, hparts⟩ := resolveDefineParts_ok hrest (acc ||| v) t₁
    exact ⟨out, by simp only [resolveDefineParts, hpart, ok_bind, hparts]⟩

end

mutual

theorem resolveDefineExpr_panicsOnly (h : ∀ name span t, PanicsOnly P (define name span t)) :
    ∀ (e : Ast.Expr) (t : Table), PanicsOnly P (resolveDefineExpr define e t)
  | .number n, t => panicsOnly_ok _
  | .ident name span, t => by
    unfold resolveDefineExpr
    split
    · exact panicsOnly_ok _
    · exact h name span t
  | .bitOr parts, t => by
    unfold resolveDefineExpr
    exact resolveDefineParts_panicsOnly h parts 0 t

theorem resolveDefineParts_panicsOnly (h : ∀ name span t, PanicsOnly P (define name span t)) :
    ∀ (parts : List Ast.Expr) (acc : UInt64) (t : Table),
    PanicsOnly P (resolveDefineParts define acc parts t)
  | [], acc, t => panicsOnly_ok _
  | part :: parts, acc, t => by
    unfold resolveDefineParts
    exact (resolveDefineExpr_panicsOnly h part t).bind fun _ _ =>
      resolveDefineParts_panicsOnly h parts _ _

end

/-- With room for every name the levels do not run out. -/
theorem resolveDefine_panicsOnly {left : ℕ} {path : List String}
    (hroom : Equations.Room (raw.map Prod.fst) left path) (name : String) (span : Span)
    (t : Table) : PanicsOnly P (resolveDefine raw left path name span t) := by
  induction left generalizing path name span t with
  | zero =>
    unfold resolveDefine
    by_cases hpath : name ∈ path
    · rw [if_pos hpath]
      exact panicsOnly_errWith _
    rw [if_neg hpath]
    rcases hlookup : raw.lookup name with _ | e
    · exact panicsOnly_errWith _
    · exact absurd (hroom.pos (mem_keys_of_lookup hlookup) hpath) (lt_irrefl 0)
  | succ left ih =>
    unfold resolveDefine
    by_cases hpath : name ∈ path
    · rw [if_pos hpath]
      exact panicsOnly_errWith _
    rw [if_neg hpath]
    rcases hlookup : raw.lookup name with _ | e
    · exact panicsOnly_errWith _
    · exact (resolveDefineExpr_panicsOnly
        (ih (hroom.cons (mem_keys_of_lookup hlookup) hpath)) e t).bind fun _ _ => panicsOnly_ok _

theorem resolveDefines_panicsOnly {left : ℕ} (hroom : Equations.Room (raw.map Prod.fst) left []) :
    ∀ (rest : List (String × Ast.Expr)) (t : Table), PanicsOnly P (resolveDefines raw left rest t)
  | [], t => panicsOnly_ok _
  | (name, e) :: rest, t => by
    unfold resolveDefines
    split
    · exact resolveDefines_panicsOnly hroom rest t
    · exact (resolveDefineExpr_panicsOnly (resolveDefine_panicsOnly hroom) e t).bind
        fun _ _ => resolveDefines_panicsOnly hroom rest _

/-- A grounded name is found: it is defined, and the path leads to it, so it is not on the path. -/
theorem resolveDefine_ok {left : ℕ} {path : List String} {name : String}
    (hroom : Equations.Room (raw.map Prod.fst) left path)
    (hground : (equations raw).Grounded name) (hleads : (equations raw).Leads path name)
    (span : Span) (t : Table) : ∃ out, resolveDefine raw left path name span t = .ok out := by
  have hpath := hground.notMem hleads
  obtain ⟨e, he⟩ := hground.defined name .refl
  have hlookup : raw.lookup name = some e := he
  have hmem := mem_keys_of_lookup hlookup
  induction left generalizing path name span t e with
  | zero => exact absurd (hroom.pos hmem hpath) (lt_irrefl 0)
  | succ left ih =>
    have hnames : ∀ m, .inr m ∈ e.leaves → ∀ span t, ∃ out,
        resolveDefine raw left (name :: path) m span t = .ok out := by
      intro m hm span t
      have hrefers : (equations raw).Refers name m := ⟨e, he, List.mem_filterMap.2 ⟨_, hm, rfl⟩⟩
      have hground := hground.of_refers hrefers
      have hleads := hleads.cons hrefers
      obtain ⟨e', he'⟩ := hground.defined m .refl
      exact ih (hroom.cons hmem hpath) hground hleads span t (hground.notMem hleads) e' he' he'
        (mem_keys_of_lookup he')
    obtain ⟨⟨v, t₁⟩, hv⟩ := resolveDefineExpr_ok hnames t
    unfold resolveDefine
    rw [if_neg hpath, hlookup]
    exact ⟨(v, (name, v) :: t₁), by simp only [hv, ok_bind]; rfl⟩

theorem resolveDefines_ok {left : ℕ} (hroom : Equations.Room (raw.map Prod.fst) left []) :
    ∀ {rest : List (String × Ast.Expr)},
    (∀ d ∈ rest, ∀ m ∈ d.2.names, (equations raw).Grounded m) →
    ∀ t, ∃ t', resolveDefines raw left rest t = .ok t'
  | [], _, t => ⟨t, rfl⟩
  | (name, e) :: rest, h, t => by
    rw [List.forall_mem_cons] at h
    unfold resolveDefines
    split
    · exact resolveDefines_ok hroom h.2 t
    · obtain ⟨⟨v, t₁⟩, hv⟩ := @resolveDefineExpr_ok (resolveDefine raw left []) e
        (fun m hm span t => resolveDefine_ok hroom
          (h.1 m (List.mem_filterMap.2 ⟨_, hm, rfl⟩)) (by simp [Equations.Leads]) span t) t
      obtain ⟨t', ht'⟩ := resolveDefines_ok hroom h.2 ((name, v) :: t₁)
      exact ⟨t', by simp only [hv, ok_bind, ht']⟩

end Succeeds

/-! ## The graph of a list of defines -/

section Graph

variable (defines : List (String × Ast.Expr))

/-- The define of `a` refers to `b`. -/
def DependsOn (a b : String) : Prop := ∃ e, (a, e) ∈ defines ∧ b ∈ e.names

/-- Every name a define refers to is defined. -/
def ClosedDefines : Prop := ∀ a b, DependsOn defines a b → b ∈ defines.map Prod.fst

def AcyclicDefines : Prop := ∀ a, ¬ TransGen (DependsOn defines) a a

/-- `n` is a number in a define that `a` reaches. -/
def NumberOf (a : String) (n : UInt64) : Prop :=
  ∃ b e, ReflTransGen (DependsOn defines) a b ∧ (b, e) ∈ defines ∧ n ∈ e.numbers

/-- `v` has the bits of the numbers of `p`. -/
def IsBitOr (p : UInt64 → Prop) (v : UInt64) : Prop :=
  ∀ i, v.toNat.testBit i = true ↔ ∃ n, p n ∧ n.toNat.testBit i = true

end Graph

section Unique

variable {defines : List (String × Ast.Expr)} {p : UInt64 → Prop} {v w : UInt64}

theorem IsBitOr.unique (hv : IsBitOr p v) (hw : IsBitOr p w) : v = w :=
  UInt64.toNat_inj.1 (Nat.eq_of_testBit_eq fun i =>
    Bool.eq_iff_iff.2 ((hv i).trans (hw i).symm))

theorem testBit_orOf (val : String → UInt64) (leaves : List (UInt64 ⊕ String)) (i : ℕ) :
    (orOf val leaves).toNat.testBit i = true ↔
      ∃ leaf ∈ leaves, (leaf.elim id val).toNat.testBit i = true := by
  unfold orOf
  induction leaves with
  | nil => simp
  | cons leaf leaves ih =>
    rw [List.foldr_cons, UInt64.toNat_or, Nat.testBit_or, Bool.or_eq_true, ih]
    simp

theorem lookup_reverse_eq_some_iff (hnodup : (defines.map Prod.fst).Nodup) {a : String}
    {e : Ast.Expr} : defines.reverse.lookup a = some e ↔ (a, e) ∈ defines := by
  rw [lookup_reverse hnodup, lookup_eq_some_iff_mem hnodup]

theorem refers_iff (hnodup : (defines.map Prod.fst).Nodup) {a b : String} :
    (equations defines.reverse).Refers a b ↔ DependsOn defines a b :=
  exists_congr fun _ => and_congr_left fun _ => lookup_reverse_eq_some_iff hnodup

/-- The solution of a name is the OR of the numbers it reaches. -/
theorem isBitOr_of_solved (hnodup : (defines.map Prod.fst).Nodup) {a : String}
    (h : (equations defines.reverse).Solved a v) : IsBitOr (NumberOf defines a) v := by
  induction h with
  | @intro a e val he hrefs ih =>
    have hmem := (lookup_reverse_eq_some_iff hnodup).1 he
    intro i
    refine (testBit_orOf val e.leaves i).trans ⟨?_, ?_⟩
    · rintro ⟨n | m, hleaf, hbit⟩
      · exact ⟨n, ⟨a, e, .refl, hmem, List.mem_filterMap.2 ⟨_, hleaf, rfl⟩⟩, hbit⟩
      · have hm : m ∈ e.names := List.mem_filterMap.2 ⟨_, hleaf, rfl⟩
        obtain ⟨n, ⟨b, e', hreach, hb, hn⟩, hbit⟩ := (ih m hm i).1 hbit
        exact ⟨n, ⟨b, e', .head ⟨e, hmem, hm⟩ hreach, hb, hn⟩, hbit⟩
    · rintro ⟨n, ⟨b, e', hreach, hb, hn⟩, hbit⟩
      rcases Relation.ReflTransGen.cases_head hreach with rfl | ⟨m, ⟨e'', he'', hm⟩, hreach⟩
      · obtain rfl := Option.some.inj (he.symm.trans ((lookup_reverse_eq_some_iff hnodup).2 hb))
        obtain ⟨leaf, hleaf, hleft⟩ := List.mem_filterMap.1 hn
        obtain rfl := Sum.getLeft?_eq_some_iff.1 hleft
        exact ⟨_, hleaf, hbit⟩
      · obtain rfl := Option.some.inj (he.symm.trans ((lookup_reverse_eq_some_iff hnodup).2 he''))
        obtain ⟨leaf, hleaf, hright⟩ := List.mem_filterMap.1 hm
        obtain rfl := Sum.getRight?_eq_some_iff.1 hright
        exact ⟨_, hleaf, (ih m hm i).2 ⟨n, ⟨b, e', hreach, hb, hn⟩, hbit⟩⟩

/-- In closed and acyclic defines every name is grounded. -/
theorem grounded_of_closed (hnodup : (defines.map Prod.fst).Nodup) (hclosed : ClosedDefines defines)
    (hacyclic : AcyclicDefines defines) {a : String} (ha : a ∈ defines.map Prod.fst) :
    (equations defines.reverse).Grounded a where
  defined b hb := by
    have hmem : b ∈ defines.map Prod.fst := by
      rcases Relation.ReflTransGen.cases_tail hb with rfl | ⟨c, -, hcb⟩
      · exact ha
      · exact hclosed c b ((refers_iff hnodup).1 hcb)
    obtain ⟨⟨_, e⟩, he, rfl⟩ := List.mem_map.1 hmem
    exact ⟨e, (lookup_reverse_eq_some_iff hnodup).2 he⟩
  acyclic b _ hcycle := by
    have hrefers : ∀ a b, (equations defines.reverse).Refers a b → DependsOn defines a b :=
      fun _ _ => (refers_iff hnodup).1
    exact hacyclic b (Relation.TransGen.mono hrefers b b hcycle)

theorem mem_keys_of_dependsOn {a b : String} (h : DependsOn defines a b) :
    a ∈ defines.map Prod.fst := by
  obtain ⟨e, he, -⟩ := h
  exact List.mem_map_of_mem (f := Prod.fst) he

/-- Solved defines are closed and acyclic. -/
theorem closed_of_grounded (hnodup : (defines.map Prod.fst).Nodup)
    (h : ∀ a ∈ defines.map Prod.fst, (equations defines.reverse).Grounded a) :
    ClosedDefines defines ∧ AcyclicDefines defines := by
  have hrefers : ∀ a b, DependsOn defines a b → (equations defines.reverse).Refers a b :=
    fun _ _ => (refers_iff hnodup).2
  constructor
  · intro a b hab
    obtain ⟨e, he⟩ := (h a (mem_keys_of_dependsOn hab)).defined b (.single (hrefers a b hab))
    have := mem_keys_of_lookup he
    rwa [List.map_reverse, List.mem_reverse] at this
  · intro a hcycle
    obtain ⟨b, hab, -⟩ := Relation.TransGen.head'_iff.1 hcycle
    exact (h a (mem_keys_of_dependsOn hab)).acyclic a .refl
      (Relation.TransGen.mono hrefers a a hcycle)

theorem dependsOn_perm {defines' : List (String × Ast.Expr)} (h : defines'.Perm defines) :
    DependsOn defines' = DependsOn defines := by
  funext a b
  exact propext (exists_congr fun _ => and_congr_left fun _ => h.mem_iff)

end Unique

section New

variable {file : Ast.PolicyFile}

theorem Resolver.new_ok_iff : (∃ r, Resolver.new file = .ok r) ↔
    ∃ t, resolveDefines file.defines.reverse file.defines.length file.defines [] = .ok t := by
  simp only [Resolver.new, bind_eq_ok, pure, Except.pure, Except.ok.injEq]
  constructor
  · rintro ⟨_, t, ht, -⟩
    exact ⟨t, ht⟩
  · rintro ⟨t, ht⟩
    exact ⟨_, t, ht, rfl⟩

theorem Resolver.defines_of_new {r : Resolver} (h : Resolver.new file = .ok r) :
    resolveDefines file.defines.reverse file.defines.length file.defines [] = .ok r.defines := by
  simp only [Resolver.new, bind_eq_ok, pure, Except.pure, Except.ok.injEq] at h
  obtain ⟨t, ht, rfl⟩ := h
  exact ht

theorem room_defines (defines : List (String × Ast.Expr)) :
    Equations.Room (defines.reverse.map Prod.fst) defines.length [] := by
  have := Equations.room_nil (defines.reverse.map Prod.fst)
  rwa [List.length_map, List.length_reverse] at this

variable (hnodup : (file.defines.map Prod.fst).Nodup)
include hnodup

/-- Every name has its solution in the table. -/
theorem Resolver.defines_solved {r : Resolver} (h : Resolver.new file = .ok r) :
    (∀ name v, r.defines.lookup name = some v →
      (equations file.defines.reverse).Solved name v) ∧
      ∀ name ∈ file.defines.map Prod.fst, ∃ v, r.defines.lookup name = some v := by
  obtain ⟨hsound, -, hall⟩ := resolveDefines_gives
    (fun d hd => (lookup_reverse_eq_some_iff hnodup).2 hd) .start (defines_of_new h)
  refine ⟨hsound.solved, fun name hname => ?_⟩
  obtain ⟨d, hd, rfl⟩ := List.mem_map.1 hname
  exact hall d hd

theorem Resolver.new_ok_iff_closed : (∃ r, Resolver.new file = .ok r) ↔
    ClosedDefines file.defines ∧ AcyclicDefines file.defines := by
  constructor
  · rintro ⟨r, hr⟩
    obtain ⟨hsound, hall⟩ := Resolver.defines_solved hnodup hr
    refine closed_of_grounded hnodup fun a ha => ?_
    obtain ⟨v, hv⟩ := hall a ha
    exact (hsound a v hv).grounded
  · rintro ⟨hclosed, hacyclic⟩
    refine new_ok_iff.2 (resolveDefines_ok (room_defines _) (fun d hd m hm => ?_) [])
    exact grounded_of_closed hnodup hclosed hacyclic (hclosed d.1 m ⟨d.2, hd, hm⟩)

theorem Resolver.lookup_eq_some_iff {r : Resolver} (h : Resolver.new file = .ok r) (name : String)
    (v : UInt64) : r.defines.lookup name = some v ↔
      name ∈ file.defines.map Prod.fst ∧ IsBitOr (NumberOf file.defines name) v := by
  obtain ⟨hsound, hall⟩ := Resolver.defines_solved hnodup h
  constructor
  · intro hv
    obtain ⟨e, he⟩ := (hsound name v hv).defined
    have hmem := mem_keys_of_lookup he
    rw [List.map_reverse, List.mem_reverse] at hmem
    exact ⟨hmem, isBitOr_of_solved hnodup (hsound name v hv)⟩
  · rintro ⟨hmem, hv⟩
    obtain ⟨w, hw⟩ := hall name hmem
    rw [hw, (isBitOr_of_solved hnodup (hsound name w hw)).unique hv]

end New

/-- With distinct names the resolver succeeds exactly on closed and acyclic defines, and its table
has the OR of the numbers each name reaches, in whatever order the defines stand. -/
theorem Resolver.new_solves {file : Ast.PolicyFile}
    (hnodup : (file.defines.map Prod.fst).Nodup) :
    ¬ Panics (Resolver.new file) ∧
    ((∃ r, Resolver.new file = .ok r) ↔
      ClosedDefines file.defines ∧ AcyclicDefines file.defines) ∧
    ∀ r, Resolver.new file = .ok r →
      (∀ name v, r.defines.lookup name = some v ↔
        name ∈ file.defines.map Prod.fst ∧ IsBitOr (NumberOf file.defines name) v) ∧
      ∀ file' : Ast.PolicyFile, file'.defines.Perm file.defines →
        ∃ r', Resolver.new file' = .ok r' ∧
          ∀ name, r'.defines.lookup name = r.defines.lookup name := by
  refine ⟨?_, Resolver.new_ok_iff_closed hnodup, fun r hr =>
    ⟨Resolver.lookup_eq_some_iff hnodup hr, fun file' hperm => ?_⟩⟩
  · rintro ⟨m, hm⟩
    have hruns : PanicsOnly (fun _ => False) (Resolver.new file) :=
      (resolveDefines_panicsOnly (room_defines _) _ _).bind fun _ _ => panicsOnly_ok _
    exact hruns.imp m hm
  · have hkeys := hperm.map Prod.fst
    have hnodup' := hkeys.nodup_iff.2 hnodup
    have hgraph := dependsOn_perm hperm
    have hclosed : ClosedDefines file'.defines ∧ AcyclicDefines file'.defines := by
      unfold ClosedDefines AcyclicDefines
      simp only [hgraph, hkeys.mem_iff]
      exact (Resolver.new_ok_iff_closed hnodup).1 ⟨r, hr⟩
    obtain ⟨r', hr'⟩ := (Resolver.new_ok_iff_closed hnodup').2 hclosed
    refine ⟨r', hr', fun name => Option.ext fun v => ?_⟩
    have hnumber : NumberOf file'.defines = NumberOf file.defines := by
      unfold NumberOf
      simp only [hgraph, hperm.mem_iff]
    rw [Resolver.lookup_eq_some_iff hnodup' hr', Resolver.lookup_eq_some_iff hnodup hr,
      hkeys.mem_iff, hnumber]

/-- A diamond, with the reference before the define. -/
def diamondFile : Ast.PolicyFile :=
  { defines :=
      [("BOTH", .bitOr [.ident "A" ⟨0, 0⟩, .ident "B" ⟨0, 0⟩]),
       ("A", .bitOr [.ident "C" ⟨0, 0⟩, .number 1]), ("B", .ident "C" ⟨0, 0⟩), ("C", .number 4)] }

theorem diamondFile_solves :
    ¬ Panics (Resolver.new diamondFile) ∧
    ((∃ r, Resolver.new diamondFile = .ok r) ↔
      ClosedDefines diamondFile.defines ∧ AcyclicDefines diamondFile.defines) ∧
    ∀ r, Resolver.new diamondFile = .ok r →
      (∀ name v, r.defines.lookup name = some v ↔
        name ∈ diamondFile.defines.map Prod.fst ∧
          IsBitOr (NumberOf diamondFile.defines name) v) ∧
      ∀ file' : Ast.PolicyFile, file'.defines.Perm diamondFile.defines →
        ∃ r', Resolver.new file' = .ok r' ∧
          ∀ name, r'.defines.lookup name = r.defines.lookup name :=
  Resolver.new_solves (by decide)

end Pnut.Kafel
