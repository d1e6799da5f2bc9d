import Mathlib.Tactic

/-!
# Parsing expression grammars

Expressions are matched against a list of characters: choice is ordered, repetition is greedy, and
a failed match consumes nothing. `Derives` is the semantics, deterministic (`Derives.unique`), and
`run` its interpreter, with fuel. A grammar whose rules can be ranked, so that a rule reached
before any input is consumed has a smaller rank, always has enough (`run_total`).

A rule leaves a token that holds the text it matched and the tokens of its body. `Yields` keeps of
the semantics what a token tree shows: which texts and tokens an expression can have, whatever was
tried before.
-/

namespace Peg

inductive Exp (R : Type) where
  | empty
  | chr (p : Char → Bool)
  | lit (l : List Char)
  | eoi
  | seq (a b : Exp R)
  | alt (a b : Exp R)
  | star (a : Exp R)
  | neg (a : Exp R)
  | call (r : R)

/-- A token: a rule, the byte offset and the text of its match, and the tokens inside. -/
inductive Pair (R : Type) where
  | mk (rule : R) (start : ℕ) (text : List Char) (children : List (Pair R))

namespace Pair

variable {R : Type}

def rule : Pair R → R
  | mk r _ _ _ => r

def start : Pair R → ℕ
  | mk _ n _ _ => n

def text : Pair R → List Char
  | mk _ _ t _ => t

def children : Pair R → List (Pair R)
  | mk _ _ _ cs => cs

end Pair

/-- Rules with their bodies; a silent rule leaves the tokens of its body and none of its own. -/
structure Grammar (R : Type) where
  body : R → Exp R
  silent : R → Bool

/-- A successful match. -/
structure Match (R : Type) where
  toks : List (Pair R)
  text : List Char
  rest : List Char

def byteLen : List Char → ℕ
  | [] => 0
  | c :: s => c.utf8Size + byteLen s

def stripPrefix : List Char → List Char → Option (List Char)
  | [], s => some s
  | _ :: _, [] => none
  | c :: l, d :: s => if c = d then stripPrefix l s else none

theorem stripPrefix_eq_some : ∀ {l s rest : List Char},
    stripPrefix l s = some rest ↔ s = l ++ rest
  | [], s, rest => by simp [stripPrefix]
  | _ :: _, [], rest => by simp [stripPrefix]
  | c :: l, d :: s, rest => by
    rw [stripPrefix]
    split_ifs with h
    · rw [stripPrefix_eq_some, h]
      simp
    · simp [Ne.symm h]

theorem stripPrefix_eq_none {l s : List Char} : stripPrefix l s = none ↔ ¬ l <+: s := by
  rw [Option.eq_none_iff_forall_ne_some]
  constructor
  · rintro h ⟨rest, rfl⟩
    exact h rest (stripPrefix_eq_some.2 rfl)
  · rintro h rest hs
    exact h ⟨rest, (stripPrefix_eq_some.1 hs).symm⟩

variable {R : Type} (G : Grammar R)

/-- The tokens a rule leaves for a match of its body. -/
def Grammar.emit (r : R) (pos : ℕ) (m : Match R) : List (Pair R) :=
  if G.silent r then m.toks else [.mk r pos m.text m.toks]

/-! ## Semantics -/

/-- `e` matches at the start of `s`, or fails there. -/
inductive Derives : Exp R → ℕ → List Char → Option (Match R) → Prop where
  | empty {pos s} : Derives .empty pos s (some ⟨[], [], s⟩)
  | chr {p pos c s} (h : p c = true) : Derives (.chr p) pos (c :: s) (some ⟨[], [c], s⟩)
  | chr_fail {p pos s} (h : ∀ c ∈ s.head?, p c = false) : Derives (.chr p) pos s none
  | lit {l pos s} : Derives (.lit l) pos (l ++ s) (some ⟨[], l, s⟩)
  | lit_fail {l pos s} (h : ¬ l <+: s) : Derives (.lit l) pos s none
  | eoi {pos} : Derives .eoi pos [] (some ⟨[], [], []⟩)
  | eoi_fail {pos c s} : Derives .eoi pos (c :: s) none
  | seq {a b pos s m m'} (ha : Derives a pos s (some m))
      (hb : Derives b (pos + byteLen m.text) m.rest (some m')) :
      Derives (.seq a b) pos s (some ⟨m.toks ++ m'.toks, m.text ++ m'.text, m'.rest⟩)
  | seq_left {a b pos s} (ha : Derives a pos s none) : Derives (.seq a b) pos s none
  | seq_right {a b pos s m} (ha : Derives a pos s (some m))
      (hb : Derives b (pos + byteLen m.text) m.rest none) : Derives (.seq a b) pos s none
  | alt_left {a b pos s m} (ha : Derives a pos s (some m)) : Derives (.alt a b) pos s (some m)
  | alt_right {a b pos s r} (ha : Derives a pos s none) (hb : Derives b pos s r) :
      Derives (.alt a b) pos s r
  | star_nil {a pos s} (ha : Derives a pos s none) :
      Derives (.star a) pos s (some ⟨[], [], s⟩)
  | star_cons {a pos s m m'} (ha : Derives a pos s (some m))
      (hs : Derives (.star a) (pos + byteLen m.text) m.rest (some m')) :
      Derives (.star a) pos s (some ⟨m.toks ++ m'.toks, m.text ++ m'.text, m'.rest⟩)
  | neg {a pos s} (ha : Derives a pos s none) : Derives (.neg a) pos s (some ⟨[], [], s⟩)
  | neg_fail {a pos s m} (ha : Derives a pos s (some m)) : Derives (.neg a) pos s none
  | call {r pos s m} (hr : Derives (G.body r) pos s (some m)) :
      Derives (.call r) pos s (some ⟨G.emit r pos m, m.text, m.rest⟩)
  | call_fail {r pos s} (hr : Derives (G.body r) pos s none) : Derives (.call r) pos s none

variable {G}

theorem Derives.unique {e : Exp R} {pos : ℕ} {s : List Char} {r r' : Option (Match R)}
    (h : Derives G e pos s r) (h' : Derives G e pos s r') : r = r' := by
  induction h generalizing r' with
  | empty => cases h'; rfl
  | chr h =>
    cases h' with
    | chr _ => rfl
    | chr_fail h' => simp [h] at h'
  | chr_fail h =>
    cases h' with
    | chr h' => simp [h'] at h
    | chr_fail _ => rfl
  | @lit l pos s =>
    generalize hs : l ++ s = s' at h'
    cases h' with
    | lit => rw [List.append_cancel_left hs]
    | lit_fail h' => exact absurd ⟨_, hs⟩ h'
  | lit_fail h =>
    cases h' with
    | lit => exact absurd ⟨_, rfl⟩ h
    | lit_fail _ => rfl
  | eoi => cases h'; rfl
  | eoi_fail => cases h'; rfl
  | seq _ _ iha ihb =>
    cases h' with
    | seq ha hb => cases iha ha; cases ihb hb; rfl
    | seq_left ha => cases iha ha
    | seq_right ha hb => cases iha ha; cases ihb hb
  | seq_left _ iha =>
    cases h' with
    | seq ha _ => cases iha ha
    | seq_left _ => rfl
    | seq_right ha _ => cases iha ha
  | seq_right _ _ iha ihb =>
    cases h' with
    | seq ha hb => cases iha ha; cases ihb hb
    | seq_left ha => cases iha ha
    | seq_right _ _ => rfl
  | alt_left _ iha =>
    cases h' with
    | alt_left ha => exact iha ha
    | alt_right ha _ => cases iha ha
  | alt_right _ _ iha ihb =>
    cases h' with
    | alt_left ha => cases iha ha
    | alt_right _ hb => exact ihb hb
  | star_nil _ iha =>
    cases h' with
    | star_nil _ => rfl
    | star_cons ha _ => cases iha ha
  | star_cons _ _ iha ihs =>
    cases h' with
    | star_nil ha => cases iha ha
    | star_cons ha hs => cases iha ha; cases ihs hs; rfl
  | neg _ iha =>
    cases h' with
    | neg _ => rfl
    | neg_fail ha => cases iha ha
  | neg_fail _ iha =>
    cases h' with
    | neg ha => cases iha ha
    | neg_fail _ => rfl
  | call _ ih =>
    cases h' with
    | call hr => cases ih hr; rfl
    | call_fail hr => cases ih hr
  | call_fail _ ih =>
    cases h' with
    | call hr => cases ih hr
    | call_fail _ => rfl

theorem Derives.append_rest {e : Exp R} {pos : ℕ} {s : List Char} {r : Option (Match R)}
    (h : Derives G e pos s r) : ∀ m ∈ r, s = m.text ++ m.rest := by
  induction h with
  | empty | chr | lit | eoi | star_nil | neg => simp
  | chr_fail | lit_fail | eoi_fail | seq_left | seq_right | neg_fail | call_fail => simp
  | seq _ _ iha ihb | star_cons _ _ iha ihb =>
    rintro _ ⟨⟩
    rw [iha _ rfl, ihb _ rfl, List.append_assoc]
  | alt_left _ iha => exact iha
  | alt_right _ _ _ ihb => exact ihb
  | @call r pos s m _ ih =>
    rintro _ ⟨⟩
    exact ih m rfl

theorem Derives.rest_le {e : Exp R} {pos : ℕ} {s : List Char} {m : Match R}
    (h : Derives G e pos s (some m)) : m.rest.length ≤ s.length := by
  rw [h.append_rest m rfl, List.length_append]
  omega

section Inversion

variable {a b : Exp R} {pos : ℕ} {s : List Char} {m : Match R}

theorem Derives.seq_inv (h : Derives G (.seq a b) pos s (some m)) :
    ∃ m₁ m₂, Derives G a pos s (some m₁) ∧
      Derives G b (pos + byteLen m₁.text) m₁.rest (some m₂) ∧ m.text = m₁.text ++ m₂.text := by
  cases h with
  | seq ha hb => exact ⟨_, _, ha, hb, rfl⟩

theorem Derives.lit_inv {l : List Char} (h : Derives G (.lit l) pos s (some m)) : m.text = l := by
  cases h with
  | lit => rfl

theorem Derives.chr_inv {p : Char → Bool} (h : Derives G (.chr p) pos s (some m)) :
    ∃ c, s = c :: m.rest ∧ m.text = [c] := by
  cases h with
  | chr hp => exact ⟨_, rfl, rfl⟩

theorem Derives.neg_lit_inv {l : List Char} (h : Derives G (.neg (.lit l)) pos s (some m)) :
    ¬ l <+: s ∧ m.text = [] ∧ m.rest = s := by
  cases h with
  | neg ha =>
    cases ha with
    | lit_fail hl => exact ⟨hl, rfl, rfl⟩

end Inversion

/-! ## The interpreter -/

def Match.then (m m' : Match R) : Match R := ⟨m.toks ++ m'.toks, m.text ++ m'.text, m'.rest⟩

variable (G) in
/-- The outer `none` is the end of the fuel, the inner one a failed match. -/
def run : ℕ → Exp R → ℕ → List Char → Option (Option (Match R))
  | 0, _, _, _ => none
  | _ + 1, .empty, _, s => some (some ⟨[], [], s⟩)
  | _ + 1, .chr _, _, [] => some none
  | _ + 1, .chr p, _, c :: s => some (bif p c then some ⟨[], [c], s⟩ else none)
  | _ + 1, .lit l, _, s =>
    match stripPrefix l s with
    | some rest => some (some ⟨[], l, rest⟩)
    | none => some none
  | _ + 1, .eoi, _, [] => some (some ⟨[], [], []⟩)
  | _ + 1, .eoi, _, _ :: _ => some none
  | n + 1, .seq a b, pos, s =>
    match run n a pos s with
    | some (some m) =>
      match run n b (pos + byteLen m.text) m.rest with
      | some (some m') => some (some (m.then m'))
      | r => r
    | r => r
  | n + 1, .alt a b, pos, s =>
    match run n a pos s with
    | some none => run n b pos s
    | r => r
  | n + 1, .star a, pos, s =>
    match run n a pos s with
    | some (some m) =>
      match run n (.star a) (pos + byteLen m.text) m.rest with
      | some (some m') => some (some (m.then m'))
      | r => r
    | some none => some (some ⟨[], [], s⟩)
    | none => none
  | n + 1, .neg a, pos, s =>
    match run n a pos s with
    | some (some _) => some none
    | some none => some (some ⟨[], [], s⟩)
    | none => none
  | n + 1, .call r, pos, s =>
    match run n (G.body r) pos s with
    | some (some m) => some (some ⟨G.emit r pos m, m.text, m.rest⟩)
    | r => r

theorem star_ne_none {a : Exp R} {pos : ℕ} {s : List Char} : ¬ Derives G (.star a) pos s none :=
  fun h => nomatch h

/-- A run that ends has the result of the semantics. -/
theorem run_sound : ∀ {n : ℕ} {e : Exp R} {pos : ℕ} {s : List Char} {r : Option (Match R)},
    run G n e pos s = some r → Derives G e pos s r := by
  intro n e pos s r h
  fun_induction run G n e pos s generalizing r with
  | case1 => cases h
  | case2 => cases h; exact .empty
  | case3 => cases h; exact .chr_fail (by simp)
  | case4 n p pos c s =>
    cases hp : p c with
    | true => simp only [hp, cond_true, Option.some.injEq] at h; subst h; exact .chr hp
    | false =>
      simp only [hp, cond_false, Option.some.injEq] at h
      subst h
      exact .chr_fail (by simpa using hp)
  | case5 n l pos s rest hs =>
    cases h
    rw [stripPrefix_eq_some.1 hs]
    exact .lit
  | case6 n l pos s hs => cases h; exact .lit_fail (stripPrefix_eq_none.1 hs)
  | case7 => cases h; exact .eoi
  | case8 => cases h; exact .eoi_fail
  | case9 n a b pos s m ha m' hb iha ihb => cases h; exact .seq (iha ha) (ihb hb)
  | case10 n a b pos s m ha hb iha ihb =>
    cases r with
    | none => exact .seq_right (iha ha) (ihb h)
    | some m' => exact absurd h (hb m')
  | case11 n a b pos s ha iha =>
    cases r with
    | none => exact .seq_left (iha h)
    | some m => exact absurd h (ha m)
  | case12 n a b pos s ha iha ihb => exact .alt_right (iha ha) (ihb h)
  | case13 n a b pos s ha iha =>
    cases r with
    | none => exact absurd h ha
    | some m => exact .alt_left (iha h)
  | case14 n a pos s m ha m' hs iha ihs => cases h; exact .star_cons (iha ha) (ihs hs)
  | case15 n a pos s m ha hs iha ihs =>
    cases r with
    | none => exact absurd (ihs h) star_ne_none
    | some m' => exact absurd h (hs m')
  | case16 n a pos s ha iha => cases h; exact .star_nil (iha ha)
  | case17 => cases h
  | case18 n a pos s m ha iha => cases h; exact .neg_fail (iha ha)
  | case19 n a pos s ha iha => cases h; exact .neg (iha ha)
  | case20 => cases h
  | case21 n rule pos s m hr ih => cases h; exact .call (ih hr)
  | case22 n rule pos s hr ih =>
    cases r with
    | none => exact .call_fail (ih h)
    | some m => exact absurd h (hr m)

/-! ## Enough fuel -/

/-- Whether `e` may match without reading a character. -/
def Exp.nullable (null : R → Bool) : Exp R → Bool
  | .empty | .eoi | .star _ | .neg _ => true
  | .chr _ => false
  | .lit l => l.isEmpty
  | .seq a b => a.nullable null && b.nullable null
  | .alt a b => a.nullable null || b.nullable null
  | .call r => null r

def Exp.size : Exp R → ℕ
  | .empty | .chr _ | .lit _ | .eoi | .call _ => 1
  | .star a | .neg a => a.size + 1
  | .seq a b | .alt a b => a.size + b.size + 1

/-- Before it reads a character `e` calls only rules of rank below `k`; what it repeats reads
one. -/
def Exp.ranked (null : R → Bool) (rank : R → ℕ) (top : ℕ) : ℕ → Exp R → Bool
  | _, .empty | _, .chr _ | _, .lit _ | _, .eoi => true
  | k, .seq a b => a.ranked null rank top k &&
    b.ranked null rank top (bif a.nullable null then k else top)
  | k, .alt a b => a.ranked null rank top k && b.ranked null rank top k
  | k, .star a => a.ranked null rank top k && !a.nullable null
  | k, .neg a => a.ranked null rank top k
  | k, .call r => decide (rank r < k)

/-- A grammar without left recursion, and bounds on its ranks and on the sizes of its bodies. -/
structure Ranked (G : Grammar R) where
  null : R → Bool
  rank : R → ℕ
  top : ℕ
  width : ℕ
  null_body : ∀ r, (G.body r).nullable null = true → null r = true
  ranked_body : ∀ r, (G.body r).ranked null rank top (rank r) = true
  rank_lt : ∀ r, rank r < top
  size_body : ∀ r, (G.body r).size ≤ width

namespace Ranked

variable (W : Ranked G)

theorem rest_lt {e : Exp R} {pos : ℕ} {s : List Char} {r : Option (Match R)}
    (h : Derives G e pos s r) : ∀ m ∈ r, e.nullable W.null = false → m.rest.length < s.length := by
  induction h with
  | empty | eoi | star_nil | neg => simp [Exp.nullable]
  | chr_fail | lit_fail | eoi_fail | seq_left | seq_right | neg_fail | call_fail => simp
  | chr => simp
  | @lit l pos s => cases l <;> simp [Exp.nullable]
  | @seq a b pos s m m' ha hb iha ihb =>
    rintro _ ⟨⟩ he
    have hle := ha.rest_le
    have hle' := hb.rest_le
    simp only [Exp.nullable, Bool.and_eq_false_iff] at he
    rcases he with he | he
    · exact lt_of_le_of_lt hle' (iha m rfl he)
    · exact lt_of_lt_of_le (ihb m' rfl he) hle
  | alt_left _ iha =>
    rintro m ⟨⟩ he
    simp only [Exp.nullable, Bool.or_eq_false_iff] at he
    exact iha _ rfl he.1
  | alt_right _ _ _ ihb =>
    intro m hm he
    simp only [Exp.nullable, Bool.or_eq_false_iff] at he
    exact ihb m hm he.2
  | star_cons => simp [Exp.nullable]
  | @call r pos s m _ ih =>
    rintro _ ⟨⟩ he
    refine ih m rfl (Bool.eq_false_iff.2 fun h => ?_)
    rw [Exp.nullable, W.null_body r h] at he
    cases he

theorem ranked_mono {e : Exp R} {j k : ℕ} (hjk : j ≤ k) (hk : k ≤ W.top)
    (h : e.ranked W.null W.rank W.top j = true) : e.ranked W.null W.rank W.top k = true := by
  induction e generalizing j k with
  | empty | chr | lit | eoi => rfl
  | seq a b iha ihb =>
    simp only [Exp.ranked, Bool.and_eq_true] at h ⊢
    refine ⟨iha hjk hk h.1, ?_⟩
    cases ha : a.nullable W.null with
    | true => rw [ha] at h; exact ihb hjk hk h.2
    | false => rw [ha] at h; exact h.2
  | alt a b iha ihb =>
    simp only [Exp.ranked, Bool.and_eq_true] at h ⊢
    exact ⟨iha hjk hk h.1, ihb hjk hk h.2⟩
  | star a iha =>
    simp only [Exp.ranked, Bool.and_eq_true] at h ⊢
    exact ⟨iha hjk hk h.1, h.2⟩
  | neg a iha => exact iha hjk hk h
  | call r =>
    simp only [Exp.ranked, decide_eq_true_eq] at h ⊢
    omega

/-- Fuel for an expression of rank `k` at a suffix of length `len`. -/
def cost (len k : ℕ) (e : Exp R) : ℕ :=
  len * ((W.top + 1) * (W.width + 1)) + k * (W.width + 1) + e.size

theorem cost_lt {len len' k : ℕ} {e e' : Exp R} (h : len' < len) (hs : e'.size ≤ W.width + 1) :
    W.cost len' W.top e' ≤ W.cost len k e - 1 := by
  have hmul : (len' + 1) * ((W.top + 1) * (W.width + 1)) ≤ len * ((W.top + 1) * (W.width + 1)) :=
    Nat.mul_le_mul_right _ h
  have hpos : 0 < e.size := by cases e <;> simp [Exp.size]
  simp only [cost]
  rw [Nat.add_mul] at hmul
  have : (W.top + 1) * (W.width + 1) = W.top * (W.width + 1) + (W.width + 1) := by ring
  omega

/-- With `cost` fuel a run ends. -/
theorem run_isSome : ∀ (n : ℕ) {k : ℕ} {e : Exp R} (pos : ℕ) {s : List Char},
    e.size ≤ W.width + 1 → k ≤ W.top → e.ranked W.null W.rank W.top k = true →
    W.cost s.length k e ≤ n → (run G n e pos s).isSome = true
  | 0, k, e, _, s, _, _, _, hn => by
    have : 0 < e.size := by cases e <;> simp [Exp.size]
    simp only [cost] at hn
    omega
  | n + 1, k, .empty, _, s, _, _, _, _ => rfl
  | n + 1, k, .chr p, _, [], _, _, _, _ => rfl
  | n + 1, k, .chr p, _, c :: s, _, _, _, _ => rfl
  | n + 1, k, .lit l, _, s, _, _, _, _ => by
    rw [run]
    split <;> rfl
  | n + 1, k, .eoi, _, [], _, _, _, _ => rfl
  | n + 1, k, .eoi, _, _ :: _, _, _, _, _ => rfl
  | n + 1, k, .seq a b, pos, s, hs, hk, hr, hn => by
    simp only [Exp.ranked, Bool.and_eq_true] at hr
    simp only [Exp.size] at hs
    have hca : W.cost s.length k a ≤ n := by
      simp only [cost, Exp.size] at hn ⊢
      omega
    obtain ⟨r, ha⟩ := Option.isSome_iff_exists.1
      (run_isSome n pos (s := s) (by omega) hk hr.1 hca)
    rw [run, ha]
    cases r with
    | none => rfl
    | some m =>
      have hb : (run G n b (pos + byteLen m.text) m.rest).isSome = true := by
        rcases lt_or_ge m.rest.length s.length with hlt | hge
        · refine run_isSome n _ (by omega) le_rfl (ranked_mono W ?_ le_rfl hr.2) ?_
          · cases a.nullable W.null <;> simp [hk]
          · have : W.cost m.rest.length W.top b ≤ W.cost s.length k (.seq a b) - 1 :=
              W.cost_lt hlt (by omega)
            omega
        · have hnull : a.nullable W.null = true := by
            by_contra h
            exact absurd (W.rest_lt (run_sound ha) m rfl (by simpa using h)) (by omega)
          rw [hnull] at hr
          refine run_isSome n _ (by omega) hk hr.2 ?_
          rw [show m.rest.length = s.length from le_antisymm (run_sound ha).rest_le hge]
          simp only [cost, Exp.size] at hn ⊢
          omega
      obtain ⟨r, hb⟩ := Option.isSome_iff_exists.1 hb
      simp only [hb]
      cases r <;> rfl
  | n + 1, k, .alt a b, pos, s, hs, hk, hr, hn => by
    simp only [Exp.ranked, Bool.and_eq_true] at hr
    simp only [Exp.size] at hs
    simp only [cost, Exp.size] at hn
    obtain ⟨r, ha⟩ := Option.isSome_iff_exists.1
      (run_isSome n pos (s := s) (by omega) hk hr.1 (by simp only [cost]; omega))
    rw [run, ha]
    cases r with
    | none => exact run_isSome n _ (by omega) hk hr.2 (by simp only [cost]; omega)
    | some m => rfl
  | n + 1, k, .star a, pos, s, hs, hk, hr, hn => by
    simp only [Exp.ranked, Bool.and_eq_true, Bool.not_eq_true'] at hr
    have hca : W.cost s.length k a ≤ n := by
      simp only [cost, Exp.size] at hn ⊢
      omega
    obtain ⟨r, ha⟩ := Option.isSome_iff_exists.1
      (run_isSome n pos (s := s) (by simp only [Exp.size] at hs; omega) hk hr.1 hca)
    rw [run, ha]
    cases r with
    | none => rfl
    | some m =>
      have hlt := W.rest_lt (run_sound ha) m rfl hr.2
      have hc : W.cost m.rest.length W.top (.star a) ≤ W.cost s.length k (.star a) - 1 :=
        W.cost_lt hlt hs
      have hstar : (Exp.star a).ranked W.null W.rank W.top k = true := by
        simp [Exp.ranked, hr.1, hr.2]
      obtain ⟨r, hm⟩ := Option.isSome_iff_exists.1
        (run_isSome n (pos + byteLen m.text) hs le_rfl
          (ranked_mono W hk le_rfl hstar) (hc.trans (by omega)))
      simp only [hm]
      cases r <;> rfl
  | n + 1, k, .neg a, pos, s, hs, hk, hr, hn => by
    simp only [Exp.size] at hs
    have hca : W.cost s.length k a ≤ n := by
      simp only [cost, Exp.size] at hn ⊢
      omega
    obtain ⟨r, ha⟩ := Option.isSome_iff_exists.1
      (run_isSome n pos (s := s) (by omega) hk (by simpa only [Exp.ranked] using hr) hca)
    rw [run, ha]
    cases r <;> rfl
  | n + 1, k, .call r, pos, s, hs, hk, hr, hn => by
    simp only [Exp.ranked, decide_eq_true_eq] at hr
    have hsize := W.size_body r
    have hca : W.cost s.length (W.rank r) (G.body r) ≤ n := by
      have := Nat.mul_le_mul_right (W.width + 1) hr
      rw [Nat.succ_mul] at this
      simp only [cost, Exp.size] at hn ⊢
      omega
    obtain ⟨m, hm⟩ := Option.isSome_iff_exists.1
      (run_isSome n pos (s := s) (by omega) (W.rank_lt r).le (W.ranked_body r) hca)
    rw [run, hm]
    cases m <;> rfl

/-- The interpreter with enough fuel, from the start rule on a whole text. -/
def parse (start : R) (s : List Char) : Option (Match R) :=
  (run G (W.cost s.length W.top (.call start)) (.call start) 0 s).getD none

theorem parse_eq {start : R} {s : List Char} {r : Option (Match R)} :
    W.parse start s = r ↔ Derives G (.call start) 0 s r := by
  obtain ⟨r', hr'⟩ := Option.isSome_iff_exists.1
    (W.run_isSome (W.cost s.length W.top (.call start)) 0 (s := s) (e := .call start)
      (by simp [Exp.size]) le_rfl (by simp [Exp.ranked, W.rank_lt]) le_rfl)
  rw [parse, hr', Option.getD_some]
  exact ⟨fun h => h ▸ run_sound hr', fun h => (run_sound hr').unique h⟩

end Ranked

/-! ## What a token tree shows -/

variable (G) in
/-- `e` can match `text` and leave `toks`. -/
inductive Yields : Exp R → List Char → List (Pair R) → Prop where
  | empty : Yields .empty [] []
  | chr {p c} (h : p c = true) : Yields (.chr p) [c] []
  | lit {l} : Yields (.lit l) l []
  | eoi : Yields .eoi [] []
  | seq {a b t t' ts ts'} (ha : Yields a t ts) (hb : Yields b t' ts') :
      Yields (.seq a b) (t ++ t') (ts ++ ts')
  | alt_left {a b t ts} (ha : Yields a t ts) : Yields (.alt a b) t ts
  | alt_right {a b t ts} (hb : Yields b t ts) : Yields (.alt a b) t ts
  | star_nil {a} : Yields (.star a) [] []
  | star_cons {a t t' ts ts'} (ha : Yields a t ts) (hs : Yields (.star a) t' ts') :
      Yields (.star a) (t ++ t') (ts ++ ts')
  | neg {a} : Yields (.neg a) [] []
  | silent {r t ts} (hr : G.silent r = true) (h : Yields (G.body r) t ts) : Yields (.call r) t ts
  | token {r pos t ts} (hr : G.silent r = false) (h : Yields (G.body r) t ts) :
      Yields (.call r) t [.mk r pos t ts]

theorem Derives.yields {e : Exp R} {pos : ℕ} {s : List Char} {r : Option (Match R)}
    (h : Derives G e pos s r) : ∀ m ∈ r, Yields G e m.text m.toks := by
  induction h with
  | empty => rintro _ ⟨⟩; exact .empty
  | chr h => rintro _ ⟨⟩; exact .chr h
  | lit => rintro _ ⟨⟩; exact .lit
  | eoi => rintro _ ⟨⟩; exact .eoi
  | chr_fail | lit_fail | eoi_fail | seq_left | seq_right | neg_fail | call_fail => simp
  | @seq _ _ _ _ m m' _ _ iha ihb => rintro _ ⟨⟩; exact .seq (iha m rfl) (ihb m' rfl)
  | alt_left _ iha => rintro m ⟨⟩; exact .alt_left (iha _ rfl)
  | alt_right _ _ _ ihb => exact fun m hm => .alt_right (ihb m hm)
  | star_nil => rintro _ ⟨⟩; exact .star_nil
  | @star_cons _ _ _ m m' _ _ iha ihs => rintro _ ⟨⟩; exact .star_cons (iha m rfl) (ihs m' rfl)
  | neg => rintro _ ⟨⟩; exact .neg
  | @call r pos s m _ ih =>
    rintro _ ⟨⟩
    cases hr : G.silent r with
    | true => simpa [Grammar.emit, hr] using Yields.silent hr (ih m rfl)
    | false => simpa [Grammar.emit, hr] using Yields.token hr (ih m rfl)

/-- Only silent rules are called. -/
def Exp.quiet (silent : R → Bool) : Exp R → Bool
  | .empty | .chr _ | .lit _ | .eoi => true
  | .seq a b | .alt a b => a.quiet silent && b.quiet silent
  | .star a | .neg a => a.quiet silent
  | .call r => silent r

theorem Yields.eq_nil_of_quiet (hG : ∀ r, G.silent r = true → (G.body r).quiet G.silent = true)
    {e : Exp R} {t : List Char} {ts : List (Pair R)} (h : Yields G e t ts)
    (he : e.quiet G.silent = true) : ts = [] := by
  induction h with
  | empty | chr | lit | eoi | star_nil | neg => rfl
  | seq _ _ iha ihb =>
    simp only [Exp.quiet, Bool.and_eq_true] at he
    rw [iha he.1, ihb he.2, List.append_nil]
  | alt_left _ iha =>
    simp only [Exp.quiet, Bool.and_eq_true] at he
    exact iha he.1
  | alt_right _ ihb =>
    simp only [Exp.quiet, Bool.and_eq_true] at he
    exact ihb he.2
  | star_cons _ _ iha ihs => rw [iha he, ihs he, List.append_nil]
  | silent hr _ ih => exact ih (hG _ hr)
  | token hr => simp [Exp.quiet, hr] at he

variable (G) in
/-- The tokens `e` can leave, whatever the text. -/
def Toks (e : Exp R) (ts : List (Pair R)) : Prop := ∃ t, Yields G e t ts

section Toks

variable {a b : Exp R} {ts : List (Pair R)}

theorem toks_empty : Toks G .empty ts ↔ ts = [] :=
  ⟨fun ⟨_, h⟩ => by cases h; rfl, fun h => ⟨[], h ▸ .empty⟩⟩

theorem toks_lit {l : List Char} : Toks G (.lit l) ts ↔ ts = [] :=
  ⟨fun ⟨_, h⟩ => by cases h; rfl, fun h => ⟨l, h ▸ .lit⟩⟩

theorem toks_seq : Toks G (.seq a b) ts ↔ ∃ us vs, Toks G a us ∧ Toks G b vs ∧ ts = us ++ vs := by
  constructor
  · rintro ⟨_, h⟩
    cases h with
    | seq ha hb => exact ⟨_, _, ⟨_, ha⟩, ⟨_, hb⟩, rfl⟩
  · rintro ⟨us, vs, ⟨t, ha⟩, ⟨t', hb⟩, rfl⟩
    exact ⟨_, .seq ha hb⟩

theorem toks_alt : Toks G (.alt a b) ts ↔ Toks G a ts ∨ Toks G b ts := by
  constructor
  · rintro ⟨_, h⟩
    cases h with
    | alt_left ha => exact .inl ⟨_, ha⟩
    | alt_right hb => exact .inr ⟨_, hb⟩
  · rintro (⟨t, ha⟩ | ⟨t, hb⟩)
    · exact ⟨t, .alt_left ha⟩
    · exact ⟨t, .alt_right hb⟩

theorem toks_star : Toks G (.star a) ts ↔
    ∃ l : List (List (Pair R)), (∀ us ∈ l, Toks G a us) ∧ ts = l.flatten := by
  constructor
  · rintro ⟨t, h⟩
    generalize he : Exp.star a = e at h
    induction h with
    | star_nil => exact ⟨[], by simp⟩
    | star_cons ha _ _ ihs =>
      cases he
      obtain ⟨l, hl, rfl⟩ := ihs rfl
      exact ⟨_ :: l, by simpa using ⟨⟨_, ha⟩, hl⟩, rfl⟩
    | _ => cases he
  · rintro ⟨l, hl, rfl⟩
    induction l with
    | nil => exact ⟨[], .star_nil⟩
    | cons us l ih =>
      obtain ⟨t, ha⟩ := hl us (by simp)
      obtain ⟨t', hs⟩ := ih fun vs hvs => hl vs (by simp [hvs])
      exact ⟨_, .star_cons ha hs⟩

variable (G) in
/-- The token is one of rule `r`, and what it holds is what the rule can match. -/
structure Pair.Is (r : R) (p : Pair R) : Prop where
  rule_eq : p.rule = r
  yields : Yields G (G.body r) p.text p.children

theorem Pair.Is.toks {r : R} {p : Pair R} (h : p.Is G r) : Toks G (G.body r) p.children :=
  ⟨_, h.yields⟩

theorem toks_call {r : R} (hr : G.silent r = false) :
    Toks G (.call r) ts ↔ ∃ p, p.Is G r ∧ ts = [p] := by
  constructor
  · rintro ⟨_, h⟩
    cases h with
    | silent hr' => simp [hr] at hr'
    | token _ h => exact ⟨.mk r _ _ _, ⟨rfl, h⟩, rfl⟩
  · rintro ⟨⟨_, pos, t, us⟩, ⟨rfl, h⟩, rfl⟩
    exact ⟨t, .token hr h⟩

end Toks

/-! ## The nodes of a tree -/

mutual

def Pair.nodes : Pair R → List (Pair R)
  | .mk r n t children => .mk r n t children :: nodesOf children

def nodesOf : List (Pair R) → List (Pair R)
  | [] => []
  | p :: ps => p.nodes ++ nodesOf ps

end

theorem nodesOf_append : ∀ (ps qs : List (Pair R)), nodesOf (ps ++ qs) = nodesOf ps ++ nodesOf qs
  | [], _ => rfl
  | p :: ps, qs => by
    rw [List.cons_append, nodesOf, nodesOf, nodesOf_append ps qs, List.append_assoc]

/-- What holds of every token a rule leaves holds of every node below a match. -/
theorem Derives.nodes {P : Pair R → Prop} (hP : ∀ r pos s m, G.silent r = false →
      Derives G (G.body r) pos s (some m) → P (.mk r pos m.text m.toks))
    {e : Exp R} {pos : ℕ} {s : List Char} {r : Option (Match R)} (h : Derives G e pos s r) :
    ∀ m ∈ r, ∀ q ∈ nodesOf m.toks, P q := by
  have happend {ps qs : List (Pair R)} (hps : ∀ q ∈ nodesOf ps, P q) (hqs : ∀ q ∈ nodesOf qs, P q) :
      ∀ q ∈ nodesOf (ps ++ qs), P q := by
    intro q hq
    rw [nodesOf_append, List.mem_append] at hq
    exact hq.elim (hps q) (hqs q)
  induction h with
  | empty | chr | lit | eoi | star_nil | neg => simp [nodesOf]
  | chr_fail | lit_fail | eoi_fail | seq_left | seq_right | neg_fail | call_fail => simp
  | seq _ _ iha ihb | star_cons _ _ iha ihb =>
    rintro _ ⟨⟩
    exact happend (iha _ rfl) (ihb _ rfl)
  | alt_left _ iha => exact iha
  | alt_right _ _ _ ihb => exact ihb
  | @call r pos s m hr ih =>
    rintro _ ⟨⟩
    unfold Grammar.emit
    split
    · exact ih m rfl
    · rename_i hsilent
      intro q hq
      simp only [nodesOf, Pair.nodes, List.append_nil, List.mem_cons] at hq
      rcases hq with rfl | hq
      · exact hP r pos s m (by simpa using hsilent) hr
      · exact ih m rfl q hq

end Peg
