import Mathlib.Tactic

/-!
# Search trees from a stack of partial trees

A search tree over the keys of a step function, grown from the highest key down. The stack keeps a
perfect tree for each binary digit of the number of leaves so far, as a binary counter does, with
the increment put off until the next leaf. Its levels ascend, so what is left at the end folds into
a tree as low as a tree with that many leaves can be.
-/

universe u v

inductive SearchTree (κ : Type u) (τ : Type v) where
  | leaf (t : τ)
  | node (k : κ) (ge lt : SearchTree κ τ)

namespace SearchTree

variable {κ : Type u} {τ : Type v}

/-- A node is the comparison of the number with its key. -/
def select [LE κ] [DecidableLE κ] : SearchTree κ τ → κ → τ
  | leaf t, _ => t
  | node k ge lt, n => if k ≤ n then ge.select n else lt.select n

/-- The most comparisons on a path. -/
def height : SearchTree κ τ → ℕ
  | leaf _ => 0
  | node _ ge lt => max ge.height lt.height + 1

/-- The number of leaves. -/
def size : SearchTree κ τ → ℕ
  | leaf _ => 1
  | node _ ge lt => ge.size + lt.size

theorem size_pos : ∀ tree : SearchTree κ τ, 0 < tree.size
  | leaf _ => Nat.one_pos
  | node _ ge lt => by
    have := ge.size_pos
    unfold size
    omega

/-- A partial tree, for the keys from `first` up to the next part's. -/
structure Part (κ : Type u) (τ : Type v) where
  level : ℕ
  first : κ
  tree : SearchTree κ τ

/-- `second` with `top`, the tree of the keys below it, under one comparison. -/
def Part.join (top second : Part κ τ) (level : ℕ) : Part κ τ :=
  ⟨level, top.first, node second.first second.tree top.tree⟩

/-- The stack below `top` joined with it as long as the two top levels are equal. -/
def mergeEqual (top : Part κ τ) : List (Part κ τ) → List (Part κ τ)
  | [] => [top]
  | second :: rest =>
    if second.level = top.level then mergeEqual (top.join second (second.level + 1)) rest
    else top :: second :: rest

/-- The whole stack joined into one part. -/
def mergeAll (top : Part κ τ) : List (Part κ τ) → Part κ τ
  | [] => top
  | second :: rest => mergeAll (top.join second second.level) rest

/-- The parts of a step function, each leaf pushed after the parts above it are merged. -/
def stack : List (κ × τ) → List (Part κ τ)
  | [] => []
  | (k, t) :: steps =>
    ⟨0, k, leaf t⟩ ::
      match stack steps with
      | [] => []
      | top :: rest => mergeEqual top rest

/-- The tree of a step function. -/
def ofSteps (steps : List (κ × τ)) : Option (SearchTree κ τ) :=
  match stack steps with
  | [] => none
  | top :: rest => some (mergeAll top rest).tree

/-- Neighbouring steps with one value made one. -/
def coalesce [DecidableEq τ] : List (κ × τ) → List (κ × τ)
  | [] => []
  | (k, t) :: steps =>
    match coalesce steps with
    | [] => [(k, t)]
    | (k', t') :: steps' => if t' = t then (k, t') :: steps' else (k, t) :: (k', t') :: steps'

theorem coalesce_head [DecidableEq τ] : ∀ steps : List (κ × τ),
    (coalesce steps).head?.map Prod.fst = steps.head?.map Prod.fst
  | [] => rfl
  | (k, t) :: steps => by
    unfold coalesce
    split
    · rfl
    · split_ifs <;> rfl

/-! ## What the tree selects -/

section Search

variable [LinearOrder κ] {g : κ → τ}

/-- `g` is the step function: from each key up to the next it has the key's value. -/
def Steps (g : κ → τ) : List (κ × τ) → Prop
  | [] => True
  | (k, t) :: steps =>
    (∀ n, k ≤ n → (∀ step ∈ steps.head?, n < step.1) → g n = t) ∧ Steps g steps

/-- The parts select `g n` for every `n` from the first part's key on. -/
def Searches (g : κ → τ) : List (Part κ τ) → Prop
  | [] => True
  | p :: rest =>
    (∀ n, p.first ≤ n → (∀ p' ∈ rest.head?, n < p'.first) → p.tree.select n = g n) ∧
      Searches g rest

theorem Steps.coalesce [DecidableEq τ] : ∀ {steps : List (κ × τ)}, Steps g steps →
    Steps g (coalesce steps)
  | [], _ => trivial
  | (k, t) :: steps, ⟨hg, h⟩ => by
    have ih := h.coalesce
    have hhead := coalesce_head steps
    unfold SearchTree.coalesce
    rcases hc : SearchTree.coalesce steps with _ | ⟨⟨k', t'⟩, steps'⟩
    · rw [hc] at hhead
      have hnil : steps.head? = none := by simpa using hhead.symm
      exact ⟨fun n hn _ => hg n hn (by simp [hnil]), trivial⟩
    · rw [hc] at hhead ih
      have hlt (n : κ) (hn : n < k') : ∀ step ∈ steps.head?, n < step.1 := by
        intro step hstep
        rw [Option.mem_def.1 hstep] at hhead
        have : k' = step.1 := by simpa using hhead
        exact this ▸ hn
      show Steps g (if t' = t then (k, t') :: steps' else (k, t) :: (k', t') :: steps')
      split_ifs with ht
      · refine ⟨fun n hn hnext => ?_, ih.2⟩
        by_cases hk : k' ≤ n
        · exact ih.1 n hk hnext
        · exact (hg n hn (hlt n (not_le.1 hk))).trans ht.symm
      · exact ⟨fun n hn hnext => hg n hn (hlt n (hnext _ rfl)), ih⟩

theorem Searches.join {top second : Part κ τ} {rest : List (Part κ τ)} (level : ℕ)
    (h : Searches g (top :: second :: rest)) : Searches g (top.join second level :: rest) := by
  obtain ⟨htop, hsecond, hrest⟩ := h
  refine ⟨fun n hn hlt => ?_, hrest⟩
  show (if second.first ≤ n then second.tree.select n else top.tree.select n) = g n
  split_ifs with hk
  · exact hsecond n hk hlt
  · exact htop n hn (by simpa using hk)

theorem Searches.mergeEqual : ∀ {rest : List (Part κ τ)} {top : Part κ τ},
    Searches g (top :: rest) → Searches g (mergeEqual top rest) ∧
      (SearchTree.mergeEqual top rest).head?.map Part.first = some top.first
  | [], _, h => ⟨h, rfl⟩
  | second :: rest, top, h => by
    unfold SearchTree.mergeEqual
    split_ifs
    · exact (h.join _).mergeEqual
    · exact ⟨h, rfl⟩

theorem Searches.mergeAll : ∀ {rest : List (Part κ τ)} {top : Part κ τ},
    Searches g (top :: rest) →
    Searches g [mergeAll top rest] ∧ (SearchTree.mergeAll top rest).first = top.first
  | [], _, h => ⟨h, rfl⟩
  | _ :: _, _, h => (h.join _).mergeAll

theorem stack_searches : ∀ {steps : List (κ × τ)}, Steps g steps → Searches g (stack steps) ∧
    (stack steps).head?.map Part.first = steps.head?.map Prod.fst
  | [], _ => ⟨trivial, rfl⟩
  | (k, t) :: steps, ⟨hg, h⟩ => by
    obtain ⟨ih, hhead⟩ := stack_searches h
    unfold stack
    rcases hs : stack steps with _ | ⟨top, rest⟩
    · rw [hs] at hhead
      have hnil : steps.head? = none := by simpa using hhead.symm
      exact ⟨⟨fun n hn _ => (hg n hn (by simp [hnil])).symm, trivial⟩, rfl⟩
    · rw [hs] at ih hhead
      obtain ⟨hmerged, hfirst⟩ := ih.mergeEqual
      refine ⟨⟨fun n hn hlt => (hg n hn fun step hstep => ?_).symm, hmerged⟩, rfl⟩
      obtain ⟨p, hp, hpfirst⟩ := Option.map_eq_some_iff.1 hfirst
      rw [Option.mem_def.1 hstep, List.head?_cons, Option.map_some, Option.map_some,
        Option.some_inj] at hhead
      exact hhead ▸ hpfirst ▸ hlt p hp

theorem searches_ofSteps {steps : List (κ × τ)} {tree : SearchTree κ τ} (h : Steps g steps)
    (hof : ofSteps steps = some tree) {n : κ} (hn : ∀ step ∈ steps.head?, step.1 ≤ n) :
    tree.select n = g n := by
  obtain ⟨hs, hhead⟩ := stack_searches h
  unfold ofSteps at hof
  rcases hstack : stack steps with _ | ⟨top, rest⟩
  · simp [hstack] at hof
  · rw [hstack] at hof hs hhead
    obtain rfl : (mergeAll top rest).tree = tree := by simpa using hof
    obtain ⟨hall, hfirst⟩ := hs.mergeAll
    obtain ⟨step, hstep, hkey⟩ := Option.map_eq_some_iff.1 hhead.symm
    exact hall.1 n (by rw [hfirst, ← hkey]; exact hn step hstep) (by simp)

theorem Steps.congr {g' : κ → τ} : ∀ {steps : List (κ × τ)}, steps.IsChain (·.1 < ·.1) →
    (∀ n, (∀ step ∈ steps.head?, step.1 ≤ n) → g n = g' n) → Steps g steps → Steps g' steps
  | [], _, _, _ => trivial
  | [(k, t)], _, heq, h =>
    ⟨fun n hn hlt => (heq n (by simpa using hn)).symm.trans (h.1 n hn hlt), trivial⟩
  | (k, t) :: next :: steps, hasc, heq, ⟨hg, h⟩ => by
    obtain ⟨hlt, hasc⟩ := List.isChain_cons_cons.1 hasc
    refine ⟨fun n hn hnext => (heq n (by simpa using hn)).symm.trans (hg n hn hnext),
      h.congr hasc fun n hn => heq n ?_⟩
    rintro _ ⟨⟩
    exact hlt.le.trans (hn next rfl)

/-- Ascending keys are those of a step function. -/
theorem exists_steps : ∀ {steps : List (κ × τ)} {step : κ × τ},
    (step :: steps).IsChain (·.1 < ·.1) → ∃ g : κ → τ, Steps g (step :: steps)
  | [], (k, t), _ => ⟨fun _ => t, fun _ _ _ => rfl, trivial⟩
  | next :: steps, (k, t), hasc => by
    obtain ⟨g, hg⟩ := exists_steps (List.isChain_cons.1 hasc).2
    refine ⟨fun n => if n < next.1 then t else g n, fun n _ hlt => if_pos (hlt next rfl),
      hg.congr (List.isChain_cons.1 hasc).2 fun n hn => ?_⟩
    exact (if_neg (not_lt.2 (hn next rfl))).symm

theorem Steps.apply : ∀ {steps : List (κ × τ)} {i : ℕ} {k n : κ} {t : τ}, Steps g steps →
    steps[i]? = some (k, t) → k ≤ n → (∀ step ∈ steps[i + 1]?, n < step.1) → g n = t
  | [], i, _, _, _, _, hi, _, _ => by simp at hi
  | (k', t') :: steps, 0, k, n, t, h, hi, hk, hlt => by
    obtain ⟨rfl, rfl⟩ : k' = k ∧ t' = t := by simpa using hi
    exact h.1 n hk (by simpa [List.head?_eq_getElem?] using hlt)
  | _ :: steps, i + 1, _, _, _, h, hi, hk, hlt => h.2.apply (i := i) (by simpa using hi) hk
      (by simpa using hlt)

/-- The tree selects the value of the step a key lies in, the last one for every key beyond. -/
theorem select_ofSteps [DecidableEq τ] {steps : List (κ × τ)} {tree : SearchTree κ τ}
    (hasc : steps.IsChain (·.1 < ·.1)) (hof : ofSteps (SearchTree.coalesce steps) = some tree)
    {i : ℕ} {k n : κ} {t : τ} (hi : steps[i]? = some (k, t)) (hk : k ≤ n)
    (hlt : ∀ step ∈ steps[i + 1]?, n < step.1) : tree.select n = t := by
  rcases steps with _ | ⟨step, steps⟩
  · simp at hi
  obtain ⟨g, hg⟩ := exists_steps hasc
  have hhead : step.1 ≤ n := by
    have hpair := List.isChain_iff_pairwise.1 hasc
    rcases i with _ | i
    · obtain rfl : step = (k, t) := by simpa using hi
      exact hk
    · exact ((List.pairwise_cons.1 hpair).1 (k, t) (List.mem_of_getElem? hi)).le.trans hk
  rw [searches_ofSteps hg.coalesce hof, hg.apply hi hk hlt]
  intro first hfirst
  have hkeys := coalesce_head (step :: steps)
  rw [Option.mem_def.1 hfirst] at hkeys
  have : first.1 = step.1 := by simpa using hkeys
  exact this ▸ hhead

end Search

/-! ## How high the tree is -/

/-- A part no higher than its level, with as many leaves as a perfect tree of that level. -/
structure Part.Perfect (p : Part κ τ) : Prop where
  height_le : p.tree.height ≤ p.level
  size_ge : 2 ^ p.level ≤ p.tree.size

/-- The leaves of a stack. -/
def sizes (parts : List (Part κ τ)) : ℕ := (parts.map fun p => p.tree.size).sum

@[simp] theorem sizes_cons (p : Part κ τ) (parts : List (Part κ τ)) :
    sizes (p :: parts) = p.tree.size + sizes parts := rfl

@[simp] theorem size_join (top second : Part κ τ) (level : ℕ) :
    (top.join second level).tree.size = second.tree.size + top.tree.size := rfl

theorem Part.Perfect.join {top second : Part κ τ} (htop : top.Perfect) (hsecond : second.Perfect)
    (h : second.level = top.level) : (top.join second (second.level + 1)).Perfect where
  height_le := by
    have h₁ := htop.height_le
    have h₂ := hsecond.height_le
    show max second.tree.height top.tree.height + 1 ≤ second.level + 1
    omega
  size_ge := by
    have h₁ := htop.size_ge
    have h₂ := hsecond.size_ge
    rw [← h] at h₁
    show 2 ^ (second.level + 1) ≤ second.tree.size + top.tree.size
    rw [pow_succ]
    omega

/-- Merging carries: the levels ascend strictly afterwards. -/
theorem mergeEqual_perfect : ∀ {rest : List (Part κ τ)} {top : Part κ τ}, top.Perfect →
    (∀ p ∈ rest, p.Perfect) → rest.IsChain (·.level < ·.level) →
    (∀ p ∈ rest.head?, top.level ≤ p.level) →
    (∀ p ∈ mergeEqual top rest, p.Perfect) ∧ (mergeEqual top rest).IsChain (·.level < ·.level) ∧
      sizes (mergeEqual top rest) = top.tree.size + sizes rest
  | [], top, htop, _, _, _ => by simp [mergeEqual, htop, sizes]
  | second :: rest, top, htop, hrest, hchain, hle => by
    simp only [List.mem_cons, forall_eq_or_imp] at hrest
    unfold mergeEqual
    split_ifs with h
    · obtain ⟨hperfect, hlevels, hsizes⟩ := mergeEqual_perfect (htop.join hrest.1 h) hrest.2
        (List.isChain_cons.1 hchain).2 (List.isChain_cons.1 hchain).1
      refine ⟨hperfect, hlevels, hsizes.trans ?_⟩
      rw [size_join, sizes_cons]
      omega
    · have hlt : top.level < second.level := lt_of_le_of_ne (hle second rfl) (Ne.symm h)
      refine ⟨by simpa [htop] using hrest, List.isChain_cons_cons.2 ⟨hlt, hchain⟩, rfl⟩

/-- The levels below the top of a stack ascend strictly, and its leaves are those of its steps. -/
theorem stack_perfect : ∀ steps : List (κ × τ), (∀ p ∈ stack steps, p.Perfect) ∧
    (∀ p ∈ (stack steps).head?, p.level = 0) ∧ (stack steps).tail.IsChain (·.level < ·.level) ∧
      sizes (stack steps) = steps.length
  | [] => by simp [stack, sizes]
  | (k, t) :: steps => by
    obtain ⟨hperfect, htop, hchain, hsizes⟩ := stack_perfect steps
    have hleaf : (⟨0, k, leaf t⟩ : Part κ τ).Perfect := ⟨le_rfl, le_rfl⟩
    unfold stack
    rcases hs : stack steps with _ | ⟨top, rest⟩
    · rw [hs] at hsizes
      refine ⟨by simpa using hleaf, by simp, by simp, ?_⟩
      rw [List.length_cons, ← hsizes]
      rfl
    · rw [hs] at hperfect htop hchain hsizes
      simp only [List.mem_cons, forall_eq_or_imp] at hperfect
      obtain ⟨hperfect', hchain', hsizes'⟩ := mergeEqual_perfect hperfect.1 hperfect.2 hchain
        fun p _ => (htop top rfl).symm ▸ Nat.zero_le p.level
      refine ⟨by simpa [hleaf] using hperfect', by simp, hchain', ?_⟩
      rw [sizes_cons, hsizes', List.length_cons, ← hsizes, sizes_cons]
      exact Nat.add_comm _ _

theorem mergeAll_height : ∀ {rest : List (Part κ τ)} {top : Part κ τ},
    top.tree.height ≤ Nat.clog 2 top.tree.size → (∀ p ∈ rest, p.Perfect) →
    rest.IsChain (·.level < ·.level) → (∀ p ∈ rest.head?, top.tree.height ≤ p.level) →
    (mergeAll top rest).tree.height ≤ Nat.clog 2 (top.tree.size + sizes rest)
  | [], _, htop, _, _, _ => htop
  | second :: rest, top, htop, hrest, hchain, hle => by
    simp only [List.mem_cons, forall_eq_or_imp] at hrest
    have hheight : (top.join second second.level).tree.height ≤ second.level + 1 := by
      have h₁ := hle second rfl
      have h₂ := hrest.1.height_le
      show max second.tree.height top.tree.height + 1 ≤ second.level + 1
      omega
    -- The join's leaves are more than the second part's, which fill its level.
    have hsize : second.level < Nat.clog 2 (top.join second second.level).tree.size := by
      rw [Nat.lt_clog_iff_pow_lt Nat.one_lt_two, size_join]
      have h₁ := hrest.1.size_ge
      have h₂ := top.tree.size_pos
      omega
    have := mergeAll_height (hheight.trans hsize) hrest.2 (List.isChain_cons.1 hchain).2
      fun p hp => hheight.trans ((List.isChain_cons.1 hchain).1 p hp)
    rw [size_join] at this
    rw [sizes_cons, ← Nat.add_assoc, Nat.add_comm top.tree.size]
    exact this

/-- A tree is as low as a tree with that many leaves can be. -/
theorem height_ofSteps {steps : List (κ × τ)} {tree : SearchTree κ τ}
    (hof : ofSteps steps = some tree) : tree.height ≤ Nat.clog 2 steps.length := by
  obtain ⟨hperfect, htop, hchain, hsizes⟩ := stack_perfect steps
  unfold ofSteps at hof
  rcases hs : stack steps with _ | ⟨top, rest⟩
  · simp [hs] at hof
  · rw [hs] at hof hperfect htop hchain hsizes
    obtain rfl : (mergeAll top rest).tree = tree := by simpa using hof
    simp only [List.mem_cons, forall_eq_or_imp] at hperfect
    have hzero : top.tree.height = 0 := by
      have := hperfect.1.height_le
      rw [htop top rfl] at this
      omega
    rw [← hsizes, sizes_cons]
    exact mergeAll_height (hzero ▸ Nat.zero_le _) hperfect.2 hchain
      fun p _ => hzero ▸ Nat.zero_le p.level

end SearchTree
