import Pnut.Lib.Text

/-!
# Paths below a directory

A path is a text, its components are what stands between the slashes. Read from a directory on, a
path is contained when it never climbs above that directory: at no component are there more `..`
than names before.
-/

namespace Path

open Peg (byteLen)
open Text

/-- The component read so far, unless it is empty. -/
def flush (cur : List Char) : List (List Char) := if cur = [] then [] else [cur]

/-- The components of a path whose first one has been read up to `cur`. -/
def componentsFrom (cur : List Char) : List Char → List (List Char)
  | [] => flush cur
  | c :: s => if c = '/' then flush cur ++ componentsFrom [] s else componentsFrom (cur ++ [c]) s

/-- What stands between the slashes of a path. -/
def components (p : List Char) : List (List Char) := componentsFrom [] p

/-- How far below the directory the components lead, or `none` where they climb above it. -/
def descend : ℕ → List (List Char) → Option ℕ
  | depth, [] => some depth
  | depth, c :: cs =>
    if c = ['.'] then descend depth cs
    else if c = ['.', '.'] then
      if depth = 0 then none else descend (depth - 1) cs
    else descend (depth + 1) cs

/-- A relative path that nowhere climbs above the directory it is read from. -/
def Contained (p : List Char) : Prop :=
  p.head? ≠ some '/' ∧ (descend 0 (components p)).isSome

instance (p : List Char) : Decidable (Contained p) :=
  inferInstanceAs (Decidable (_ ∧ _))

/-! ## Components -/

theorem componentsFrom_slash (p q : List Char) : ∀ cur : List Char,
    componentsFrom cur (p ++ '/' :: q) = componentsFrom cur p ++ components q := by
  induction p with
  | nil =>
    intro cur
    rw [List.nil_append]
    show (if '/' = '/' then _ else _) = _
    rw [if_pos rfl]
    rfl
  | cons c p ih =>
    intro cur
    rw [List.cons_append, componentsFrom, componentsFrom]
    split_ifs with hc
    · rw [ih, List.append_assoc]
    · exact ih _

/-- A slash separates the components before it from those behind it. -/
theorem components_slash (p q : List Char) :
    components (p ++ '/' :: q) = components p ++ components q := componentsFrom_slash p q []

theorem componentsFrom_of_not_mem {p : List Char} (h : '/' ∉ p) : ∀ cur : List Char,
    componentsFrom cur p = flush (cur ++ p) := by
  induction p with
  | nil =>
    intro cur
    rw [componentsFrom, List.append_nil]
  | cons c p ih =>
    intro cur
    rw [List.mem_cons, not_or] at h
    rw [componentsFrom, if_neg (Ne.symm h.1), ih h.2, List.append_assoc]
    rfl

/-- A name. -/
theorem components_of_not_mem {p : List Char} (h : '/' ∉ p) : components p = flush p :=
  componentsFrom_of_not_mem h []

/-- Components are names without slashes. -/
theorem mem_componentsFrom (s : List Char) : ∀ cur : List Char, '/' ∉ cur →
    ∀ c ∈ componentsFrom cur s, c ≠ [] ∧ '/' ∉ c := by
  have hflush : ∀ cur : List Char, '/' ∉ cur → ∀ c ∈ flush cur, c ≠ [] ∧ '/' ∉ c := by
    intro cur hcur c hmem
    unfold flush at hmem
    split_ifs at hmem with hne
    · cases hmem
    · rw [List.mem_singleton] at hmem
      exact hmem ▸ ⟨hne, hcur⟩
  induction s with
  | nil => exact hflush
  | cons d s ih =>
    intro cur hcur c hmem
    rw [componentsFrom] at hmem
    split_ifs at hmem with hd
    · rcases List.mem_append.1 hmem with hmem | hmem
      · exact hflush cur hcur c hmem
      · exact ih [] List.not_mem_nil c hmem
    · refine ih (cur ++ [d]) ?_ c hmem
      simpa [hcur] using Ne.symm hd

/-! ## Depth -/

theorem descend_append (cs ds : List (List Char)) : ∀ depth : ℕ,
    descend depth (cs ++ ds) = (descend depth cs).bind fun depth => descend depth ds := by
  induction cs with
  | nil => exact fun depth => rfl
  | cons c cs ih =>
    intro depth
    rw [List.cons_append, descend, descend]
    split_ifs with hdot hup hzero
    · exact ih depth
    · rfl
    · exact ih _
    · exact ih _

/-- Components that stay below the directory do so up to each of them. -/
theorem descend_isSome_of_append {cs ds : List (List Char)} {depth : ℕ}
    (h : (descend depth (cs ++ ds)).isSome) : (descend depth cs).isSome := by
  rw [descend_append] at h
  rcases hcs : descend depth cs with _ | d
  · rw [hcs] at h
    cases h
  · rfl

/-! ## Paths of components -/

/-- A path and one more name. -/
def join (p name : List Char) : List Char := if p = [] then name else p ++ '/' :: name

theorem components_join {p name : List Char} (hname : '/' ∉ name) :
    components (join p name) = components p ++ flush name := by
  unfold join
  split_ifs with hp
  · rw [hp, components_of_not_mem hname]
    rfl
  · rw [components_slash, components_of_not_mem hname]

/-- The components, from the path `p` on, up to the first with which the path no longer fits a
buffer of `room` bytes. -/
def fitting (room : ℕ) : List Char → List (List Char) → List (List Char)
  | _, [] => []
  | p, c :: cs =>
    if byteLen (join p c) < room then c :: fitting room (join p c) cs else []

/-- The bytes of a path that another name is put behind. -/
def joinBase (p : List Char) : ℕ := if p = [] then 0 else byteLen p + 1

theorem byteLen_join (p name : List Char) : byteLen (join p name) = joinBase p + byteLen name := by
  unfold join joinBase
  split_ifs with hp
  · rw [Nat.zero_add]
  · rw [byteLen_append, byteLen, Nat.add_assoc]
    rfl

theorem join_ne_nil {p name : List Char} (hname : name ≠ []) : join p name ≠ [] := by
  unfold join
  split_ifs
  · exact hname
  · simp

theorem join_head {p name : List Char} (hp : p.head? ≠ some '/') (hname : '/' ∉ name) :
    (join p name).head? ≠ some '/' := by
  unfold join
  split_ifs with h
  · rcases name with _ | ⟨c, name⟩
    · simp
    · rw [List.mem_cons, not_or] at hname
      simpa using Ne.symm hname.1
  · rcases p with _ | ⟨c, p⟩
    · exact absurd rfl h
    · simpa using hp

/-- The components of a text that fits the buffer fit it. -/
theorem fitting_of_lt {room : ℕ} (s : List Char) : ∀ p cur : List Char,
    joinBase p + byteLen cur + byteLen s < room →
    fitting room p (componentsFrom cur s) = componentsFrom cur s := by
  induction s with
  | nil =>
    intro p cur h
    rw [componentsFrom, flush]
    split_ifs with hcur
    · rfl
    · rw [byteLen] at h
      rw [fitting, if_pos (by rw [byteLen_join]; omega)]
      rfl
  | cons c s ih =>
    intro p cur h
    have hpos := c.utf8Size_pos
    rw [byteLen] at h
    rw [componentsFrom]
    split_ifs with hc
    · rw [flush]
      split_ifs with hcur
      · refine ih p [] ?_
        rw [byteLen]
        omega
      · rw [List.singleton_append, fitting, if_pos (by rw [byteLen_join]; omega), ih]
        rw [joinBase, if_neg (join_ne_nil hcur), byteLen_join, byteLen]
        omega
    · refine ih p (cur ++ [c]) ?_
      rw [byteLen_append, byteLen, byteLen]
      omega

end Path
