import Mathlib.Data.List.TakeWhile
import Pnut.Child.Directories

/-!
# The prefixes of a path

The loop over the bytes keeps the path so far at the front of its buffer, and is inside a component
that has not been copied yet. At a slash, or at the end, the component is put behind the path and
the prefix is made, so the calls are those of the components' prefixes, up to the first that fails
or does not fit.
-/

namespace Pnut.Child.Directories

open Program Prog
open Mount (EEXIST ENAMETOOLONG MAX_PATH_BYTES)

/-! ## Prefixes -/

/-- The non-empty components. -/
def components (path : List UInt8) : List (List UInt8) :=
  (path.splitOn SLASH).filter (· ≠ [])

/-- The slash-joined prefixes of the components, shortest first. -/
def prefixes (path : List UInt8) : List (List UInt8) :=
  (components path).inits.tail.map ([SLASH].intercalate ·)

/-- What comes before the last slash. -/
def parentText (path : List UInt8) : List UInt8 :=
  (path.reverse.dropWhile (· != SLASH)).tail.reverse

/-- A path that is there already is no failure. -/
def refusal : Except Errno Unit → Option Errno
  | .ok () => none
  | .error err => if err = EEXIST then none else some err

/-- A prefix is made, if it fits the buffer with its NUL. -/
def making (dir : CInt) (path : List UInt8) : Check Op.Out Errno :=
  if path.length + 1 ≤ 4096 then .call (.mkdirat dir path 0o755) refusal
  else .refuse ENAMETOOLONG

def outcome : Option Errno → Except Errno Unit
  | none => .ok ()
  | some err => .error err

/-- The prefixes one after the other. -/
def makes (dir : CInt) (paths : List (List UInt8)) : Step Unit :=
  (attempts (paths.map (making dir))).bind fun failure => .ret (outcome failure)

section Prefixes

variable {cum c : List UInt8} {cs : List (List UInt8)}

def join (cum c : List UInt8) : List UInt8 := if cum = [] then c else cum ++ SLASH :: c

/-- The prefixes from the path so far on. -/
def prefixesFrom : List UInt8 → List (List UInt8) → List (List UInt8)
  | _, [] => []
  | cum, c :: cs => join cum c :: prefixesFrom (join cum c) cs

theorem intercalate_concat (hne : cs ≠ []) (c : List UInt8) :
    [SLASH].intercalate (cs ++ [c]) = [SLASH].intercalate cs ++ SLASH :: c := by
  induction cs with
  | nil => exact absurd rfl hne
  | cons d cs ih =>
    by_cases hcs : cs = []
    · subst hcs
      simp [List.intercalate]
    · rw [List.cons_append, List.intercalate_cons_of_ne_nil (by simp), ih hcs,
        List.intercalate_cons_of_ne_nil hcs]
      simp only [List.append_assoc]

theorem intercalate_ne_nil (hne : cs ≠ []) (hcs : [] ∉ cs) : [SLASH].intercalate cs ≠ [] := by
  rcases cs with _ | ⟨d, cs⟩
  · exact absurd rfl hne
  · have hd : d ≠ [] := fun h => hcs (h ▸ List.mem_cons_self ..)
    by_cases hcs : cs = []
    · rwa [hcs, List.intercalate_singleton]
    · rw [List.intercalate_cons_of_ne_nil hcs]
      simp [hd]

/-- One more component. -/
theorem intercalate_join (hcs : [] ∉ cs) (c : List UInt8) :
    [SLASH].intercalate (cs ++ [c]) = join ([SLASH].intercalate cs) c := by
  unfold join
  by_cases hne : cs = []
  · rw [hne, if_pos (by rfl), List.nil_append, List.intercalate_singleton]
  · rw [if_neg (intercalate_ne_nil hne hcs), intercalate_concat hne]

theorem prefixesFrom_eq (hcs : [] ∉ cs) : ∀ done : List (List UInt8), [] ∉ done →
    prefixesFrom ([SLASH].intercalate done) cs =
      cs.inits.tail.map fun ds => [SLASH].intercalate (done ++ ds) := by
  induction cs with
  | nil => exact fun _ _ => rfl
  | cons c cs ih =>
    intro done hdone
    obtain ⟨hc, hcs⟩ := not_or.1 (List.mem_cons.not.1 hcs)
    have hinits : cs.inits = [] :: cs.inits.tail := by cases cs <;> simp
    rw [prefixesFrom, ← intercalate_join hdone, ih hcs (done ++ [c]) (by simp [hdone, hc]),
      List.inits_cons, List.tail_cons, List.map_map, hinits]
    simp only [List.tail_cons, List.map_cons, Function.comp, List.append_assoc,
      List.singleton_append]
    rfl

theorem nil_notMem_components (path : List UInt8) : [] ∉ components path := by simp [components]

theorem prefixes_eq (path : List UInt8) : prefixes path = prefixesFrom [] (components path) :=
  (prefixesFrom_eq (nil_notMem_components path) [] List.not_mem_nil).symm

theorem length_lt_join (cum : List UInt8) (hc : c ≠ []) : cum.length < (join cum c).length := by
  have hpos := List.length_pos_iff.2 hc
  unfold join
  split_ifs with hcum
  · rwa [hcum]
  · rw [List.length_append, List.length_cons]
    omega

theorem prefixesFrom_increasing (cs : List (List UInt8)) : ∀ cum : List UInt8, [] ∉ cs →
    (∀ p ∈ prefixesFrom cum cs, cum.length < p.length) ∧
      (prefixesFrom cum cs).Pairwise (·.length < ·.length) := by
  induction cs with
  | nil => exact fun _ _ => ⟨nofun, .nil⟩
  | cons c cs ih =>
    intro cum hcs
    obtain ⟨hc, hcs⟩ := not_or.1 (List.mem_cons.not.1 hcs)
    have hlt := length_lt_join cum (Ne.symm hc)
    obtain ⟨hlonger, hincreasing⟩ := ih (join cum c) hcs
    unfold prefixesFrom
    refine ⟨List.forall_mem_cons.2 ⟨hlt, fun p hp => hlt.trans (hlonger p hp)⟩,
      List.pairwise_cons.2 ⟨hlonger, hincreasing⟩⟩

/-- Each prefix is longer than those before it. -/
theorem prefixes_increasing (path : List UInt8) :
    (prefixes path).Pairwise (·.length < ·.length) :=
  prefixes_eq path ▸ (prefixesFrom_increasing _ [] (nil_notMem_components path)).2

end Prefixes

/-! ## The buffer -/

section Buffer

variable {dir : CInt} {cum room component : List UInt8} {start : ℕ}

theorem checked_some_bind {α β : Type} (a : α) (f : α → Step β) :
    checked (some a) >>= f = f a := rfl

theorem pure_bind' {α β : Type} (a : α) (f : α → Step β) : (pure a : Step α) >>= f = f a := rfl

/-- The path before the NUL is what the kernel reads. -/
theorem mkdirat_bind {path : List UInt8} (hpath : 0 ∉ path) (hfit : path.length + 1 ≤ 4096)
    (k : Step Unit) (paths : List (List UInt8)) (hk : k = makes dir paths) :
    (mkdirat dir (path ++ [0]) >>= fun _ => k) = makes dir (path :: paths) := by
  unfold mkdirat makes
  rw [readPath_cStr hpath, except_bind_assoc, lift_bind, List.map_cons, making, if_pos hfit]
  refine congrArg (Prog.call (Op.mkdirat dir path 0o755)) ?_
  funext out
  rcases out with err | ⟨⟩
  · by_cases hexist : err = EEXIST
    · subst hexist
      exact hk
    · have hrefused : refusal (.error err) = some err := if_neg hexist
      simp only [hrefused]
      show ((if err ≠ EEXIST then throw err else pure () : Step Unit) >>= fun _ => k) = _
      rw [if_pos hexist]
      rfl
  · exact hk

theorem makes_refuse {path : List UInt8} (hlong : ¬ path.length + 1 ≤ 4096)
    (paths : List (List UInt8)) : makes dir (path :: paths) = throw ENAMETOOLONG := by
  unfold makes
  rw [List.map_cons, making, if_neg hlong]
  rfl

/-- A component goes behind what the buffer begins with, followed by the NUL. -/
theorem pushComponent_of_slash {cumulative : Cumulative} {base : List UInt8}
    (hslash : pushSlash cumulative = pure ⟨base ++ room, base.length, start⟩)
    (hroom : base.length + room.length = 4096) (hpath : 0 ∉ base ++ component)
    (k : Cumulative → Step Unit) (paths : List (List UInt8))
    (hk : ∀ room', (base ++ component).length + room'.length = 4096 →
      k ⟨(base ++ component) ++ room', (base ++ component).length, start⟩ = makes dir paths) :
    (pushComponent dir component cumulative >>= k) =
      makes dir ((base ++ component) :: paths) := by
  have hlen : (base ++ room).length = 4096 := by rw [List.length_append, hroom]
  unfold pushComponent
  rw [hslash, pure_bind']
  dsimp only
  rw [hlen]
  by_cases hfit : (base ++ component).length + 1 ≤ 4096
  · have hle := hfit
    rw [List.length_append] at hle
    obtain ⟨room₁, hroom₁⟩ : ∃ room₁, room.drop component.length = room₁ := ⟨_, rfl⟩
    have hlen₁ : room.length - component.length = room₁.length := by
      rw [← hroom₁, List.length_drop]
    have hcopy : copyFromSlice (base ++ room) base.length component =
        some ((base ++ component) ++ room₁) := hroom₁ ▸ copyFromSlice_divide rfl (by omega)
    have hnul : store ((base ++ component) ++ room₁) (base.length + component.length) 0 =
        some ((base ++ component) ++ [0] ++ room₁.drop 1) :=
      store_divide List.length_append.symm (by omega) 0
    have hpathz : subslice ((base ++ component) ++ [0] ++ room₁.drop 1) 0
        (base.length + component.length + 1) = some ((base ++ component) ++ [0]) :=
      subslice_done (by simp [Nat.add_assoc])
    rw [if_neg (by omega), hcopy, checked_some_bind, hnul, checked_some_bind, hpathz,
      checked_some_bind, except_bind_assoc]
    refine mkdirat_bind hpath hfit _ paths ?_
    rw [← List.length_append, List.append_assoc]
    refine hk _ ?_
    simp
    omega
  · rw [makes_refuse hfit, if_pos]
    · rfl
    · rw [List.length_append] at hfit
      omega

/-- A component that has been read is made, if the path with it fits the buffer. -/
theorem pushComponent_bind (hne : component ≠ []) (hroom : cum.length + room.length = 4096)
    (hcum : 0 ∉ cum) (hcomponent : 0 ∉ component) (k : Cumulative → Step Unit)
    (paths : List (List UInt8))
    (hk : ∀ room', (join cum component).length + room'.length = 4096 →
      k ⟨join cum component ++ room', (join cum component).length, start⟩ = makes dir paths) :
    (pushComponent dir component ⟨cum ++ room, cum.length, start⟩ >>= k) =
      makes dir (join cum component :: paths) := by
  by_cases hnil : cum = []
  · subst hnil
    have hslash : pushSlash ⟨[] ++ room, 0, start⟩ =
        pure ⟨[] ++ room, ([] : List UInt8).length, start⟩ := rfl
    exact pushComponent_of_slash hslash hroom (by simpa using hcomponent) k paths hk
  · have hpos : 0 < component.length := List.length_pos_iff.2 hne
    have hlen : (cum ++ room).length = 4096 := by rw [List.length_append, hroom]
    unfold join at hk ⊢
    rw [if_neg hnil] at hk ⊢
    by_cases hfull : 4096 ≤ cum.length + 1
    · have hslash : pushSlash ⟨cum ++ room, cum.length, start⟩ = throw ENAMETOOLONG := by
        unfold pushSlash
        rw [if_pos (by simpa using hnil), if_pos (hlen ▸ hfull)]
      unfold pushComponent
      rw [makes_refuse (by simp; omega), hslash]
      rfl
    · have hslash : pushSlash ⟨cum ++ room, cum.length, start⟩ =
          pure ⟨(cum ++ [SLASH]) ++ room.drop 1, (cum ++ [SLASH]).length, start⟩ := by
        unfold pushSlash
        dsimp only
        rw [if_pos (by simpa using hnil), if_neg (hlen ▸ hfull), store_divide rfl (by omega),
          checked_some_bind, List.length_append]
        rfl
      have hjoin : cum ++ SLASH :: component = (cum ++ [SLASH]) ++ component := by simp
      rw [hjoin] at hk ⊢
      refine pushComponent_of_slash hslash ?_ ?_ k paths hk
      · simp
        omega
      · simp [hcum, hcomponent, SLASH]

end Buffer

/-! ## The loop -/

section Loop

variable {dir : CInt} {path pre cur rest cum room : List UInt8}

def named (cur : List UInt8) : List (List UInt8) := if cur = [] then [] else [cur]

theorem components_of_notMem (hcur : SLASH ∉ cur) : components cur = named cur := by
  unfold components named
  rw [List.splitOn_eq_singleton hcur]
  split_ifs with hnil <;> simp [hnil]

theorem components_slash (hcur : SLASH ∉ cur) :
    components (cur ++ SLASH :: rest) = named cur ++ components rest := by
  rw [← components_of_notMem hcur]
  unfold components
  rw [List.splitOn_append_cons_self, List.filter_append]

theorem join_notMem {c : List UInt8} (hcum : 0 ∉ cum) (hc : 0 ∉ c) : 0 ∉ join cum c := by
  unfold join
  split_ifs
  · exact hc
  · simp [hcum, hc, SLASH]

/-- At the end of a component, which may be empty, the prefix with it is made. -/
theorem mkdiratStep_boundary (hpath : path = pre ++ (cur ++ rest))
    (hat : atBoundary path (pre.length + cur.length) = pure true) (hcur : 0 ∉ cur)
    (hcum : 0 ∉ cum) (hroom : cum.length + room.length = 4096) (k : Cumulative → Step Unit)
    (cs : List (List UInt8))
    (hk : ∀ cum' room', 0 ∉ cum' → cum'.length + room'.length = 4096 →
      k ⟨cum' ++ room', cum'.length, pre.length + cur.length + 1⟩ =
        makes dir (prefixesFrom cum' cs)) :
    (mkdiratStep dir path ⟨cum ++ room, cum.length, pre.length⟩ (pre.length + cur.length) >>= k) =
      makes dir (prefixesFrom cum (named cur ++ cs)) := by
  unfold mkdiratStep named
  rw [hat, pure_bind', if_pos rfl]
  dsimp only
  by_cases hnil : cur = []
  · subst hnil
    rw [if_neg (by simp), if_pos rfl]
    exact hk cum room hcum hroom
  · have hpos := List.length_pos_iff.2 hnil
    rw [if_pos (by omega), if_neg hnil, hpath, subslice_divide rfl rfl, checked_some_bind,
      except_bind_assoc]
    exact pushComponent_bind hnil hroom hcum hcur _ _ fun room' hroom' =>
      hk _ room' (join_notMem hcum hcur) hroom'

theorem atBoundary_end (hpath : path = pre ++ (cur ++ [])) :
    atBoundary path (pre.length + cur.length) = pure true := by
  unfold atBoundary
  rw [if_pos (by simp [hpath])]

theorem atBoundary_byte {byte : UInt8} (hpath : path = pre ++ (cur ++ byte :: rest)) :
    atBoundary path (pre.length + cur.length) = pure (byte == SLASH) := by
  have hbyte : path[pre.length + cur.length]? = some byte := by
    rw [hpath, ← List.append_assoc, List.getElem?_append_right (by simp)]
    simp
  unfold atBoundary
  rw [if_neg (by simp [hpath]), hbyte]
  rfl

/-- From a byte on, with the component that is being read. -/
theorem mkdiratFold_eq (dir : CInt) (hnul : 0 ∉ path) (rest : List UInt8) :
    ∀ pre cur cum room : List UInt8,
    path = pre ++ (cur ++ rest) → SLASH ∉ cur → 0 ∉ cum → cum.length + room.length = 4096 →
    ((List.range' (pre.length + cur.length) (rest.length + 1)).foldlM (mkdiratStep dir path)
      ⟨cum ++ room, cum.length, pre.length⟩ >>= fun _ => (pure () : Step Unit)) =
        makes dir (prefixesFrom cum (components (cur ++ rest))) := by
  induction rest with
  | nil =>
    intro pre cur cum room hpath hcur hcum hroom
    have hcurz : 0 ∉ cur := fun h => hnul (by simp [hpath, h])
    rw [List.append_nil, components_of_notMem hcur, ← List.append_nil (named cur)]
    show (mkdiratStep _ _ _ _ >>= fun cum => pure cum) >>= _ = _
    rw [except_bind_assoc]
    exact mkdiratStep_boundary hpath (atBoundary_end hpath) hcurz hcum hroom _ [] fun _ _ _ _ => rfl
  | cons byte rest ih =>
    intro pre cur cum room hpath hcur hcum hroom
    have hcurz : 0 ∉ cur := fun h => hnul (by simp [hpath, h])
    rw [List.length_cons, List.range'_succ, List.foldlM_cons, except_bind_assoc]
    by_cases hslash : byte = SLASH
    · subst hslash
      have hat := atBoundary_byte hpath
      rw [components_slash hcur]
      refine mkdiratStep_boundary hpath hat hcurz hcum hroom _ _ fun cum' room' hcum' hroom' => ?_
      have hnext :=
        ih (pre ++ cur ++ [SLASH]) [] cum' room' (by simp [hpath]) (by simp) hcum' hroom'
      simpa [Nat.add_assoc] using hnext
    · have hat := atBoundary_byte hpath
      rw [beq_false_of_ne hslash] at hat
      have hstep : mkdiratStep dir path ⟨cum ++ room, cum.length, pre.length⟩
          (pre.length + cur.length) = pure ⟨cum ++ room, cum.length, pre.length⟩ := by
        unfold mkdiratStep
        rw [hat, pure_bind', if_neg Bool.false_ne_true]
      rw [hstep, pure_bind']
      have hnext := ih pre (cur ++ [byte]) cum room (by simp [hpath])
        (by simp [hcur, Ne.symm hslash]) hcum hroom
      simpa [Nat.add_assoc] using hnext

theorem mkdiratAll_eq (dir : CInt) (hnul : 0 ∉ path) :
    mkdiratAll dir path = makes dir (prefixes path) := by
  unfold mkdiratAll
  split_ifs with hempty
  · rw [List.isEmpty_iff.1 hempty]
    rfl
  · rw [prefixes_eq, List.range_eq_range']
    have hroom : ([] : List UInt8).length + (List.replicate 4096 (0 : UInt8)).length = 4096 := by
      rw [List.length_replicate, List.length_nil]
    have hfold :=
      mkdiratFold_eq dir hnul path [] [] [] _ rfl List.not_mem_nil List.not_mem_nil hroom
    rwa [List.nil_append] at hfold

end Loop

/-! ## The parent -/

section Parent

variable {path parent name : List UInt8}

theorem parentText_of_notMem (h : SLASH ∉ path) : parentText path = [] := by
  have hall : path.reverse.dropWhile (· != SLASH) = [] := by
    rw [List.dropWhile_eq_nil_iff]
    intro byte hbyte
    rw [bne_iff_ne]
    rintro rfl
    exact h (List.mem_reverse.1 hbyte)
  unfold parentText
  rw [hall]
  rfl

theorem parentText_slash (hname : SLASH ∉ name) :
    parentText (parent ++ SLASH :: name) = parent := by
  unfold parentText
  rw [List.reverse_append, List.reverse_cons, List.append_assoc, List.dropWhile_append_of_pos]
  · simp
  · intro byte hbyte
    rw [bne_iff_ne]
    rintro rfl
    exact hname (List.mem_reverse.1 hbyte)

theorem rposition_none (h : rposition (· == SLASH) path = none) : SLASH ∉ path := by
  induction path with
  | nil => exact List.not_mem_nil
  | cons byte path ih =>
    unfold rposition at h
    split at h
    · cases h
    · rename_i hnone
      split_ifs at h with hbyte
      rw [List.mem_cons, not_or]
      exact ⟨fun heq => hbyte (by rw [← heq, beq_self_eq_true]), ih hnone⟩

/-- The last slash. -/
theorem rposition_some {path : List UInt8} : ∀ {idx : ℕ}, rposition (· == SLASH) path = some idx →
    ∃ parent name, path = parent ++ SLASH :: name ∧ SLASH ∉ name ∧ parent.length = idx := by
  induction path with
  | nil =>
    intro idx h
    cases h
  | cons byte path ih =>
    intro idx h
    unfold rposition at h
    split at h
    · rename_i idx' hsome
      obtain rfl := Option.some.inj h
      obtain ⟨parent, name, rfl, hname, rfl⟩ := ih hsome
      exact ⟨byte :: parent, name, rfl, hname, rfl⟩
    · rename_i hnone
      split_ifs at h with hbyte
      obtain rfl := Option.some.inj h
      rw [beq_iff_eq] at hbyte
      exact ⟨[], path, by rw [hbyte, List.nil_append], rposition_none hnone, rfl⟩

/-- The text before the last slash is a path again, if it fits the buffer. -/
theorem ensureParentDirs_eq (root : CInt) (hnul : 0 ∉ path) : ensureParentDirs root path =
    if (parentText path).length + 1 ≤ 4096 then makes root (prefixes (parentText path))
    else throw ENAMETOOLONG := by
  unfold ensureParentDirs
  rcases hlast : rposition (· == SLASH) path with _ | idx
  · rw [parentText_of_notMem (rposition_none hlast), if_pos (by simp)]
    rfl
  · obtain ⟨parent, name, rfl, hname, rfl⟩ := rposition_some hlast
    rw [parentText_slash hname]
    dsimp only
    by_cases hzero : parent.length = 0
    · rw [List.length_eq_zero_iff.1 hzero, if_pos List.length_nil, if_pos (by simp)]
      rfl
    by_cases hfit : parent.length + 1 ≤ 4096
    · have hcopy : copyFromSlice ([] ++ List.replicate MAX_PATH_BYTES 0) 0 parent =
          some (([] ++ parent) ++ (List.replicate MAX_PATH_BYTES 0).drop parent.length) :=
        copyFromSlice_divide rfl (by
          rw [List.length_replicate, MAX_PATH_BYTES]
          omega)
      have hnulput : store (([] ++ parent) ++ (List.replicate MAX_PATH_BYTES 0).drop parent.length)
          parent.length 0 = some (parent ++ [0] ++
            ((List.replicate MAX_PATH_BYTES (0 : UInt8)).drop parent.length).drop 1) :=
        store_divide rfl (by
          rw [List.length_drop, List.length_replicate, MAX_PATH_BYTES]
          omega) 0
      rw [if_neg hzero, if_neg (by rw [MAX_PATH_BYTES]; omega), if_pos hfit, subslice_done rfl,
        checked_some_bind, ← List.nil_append (List.replicate MAX_PATH_BYTES 0), hcopy,
        checked_some_bind, hnulput, checked_some_bind, subslice_done (by simp), checked_some_bind,
        List.dropLast_concat]
      exact mkdiratAll_eq root fun h => hnul (List.mem_append_left _ h)
    · rw [if_neg hzero, if_pos (by rw [MAX_PATH_BYTES]; omega), if_neg hfit]

end Parent

/-! ## Runs -/

section Runs

variable {dir : CInt} {t : List (Event Op.Out)} {e : Ending Op (Except Errno Unit)}

/-- A run of the checks is what they perform. -/
theorem runs_checks {checks : List (Check Op.Out Errno)}
    (hback : ∀ op judge, Check.call op judge ∈ checks → ¬ Op.Final op) :
    Runs Op.Final ((attempts checks).bind fun failure => .ret (outcome failure)) t e ↔
      ∃ failure, e = .returned (outcome failure) ∧ Performs checks t failure := by
  constructor
  · intro h
    rcases h.bind_inv with ⟨t₁, t₂, failure, rfl, h₁, h₂⟩ | ⟨op, -, h₁⟩
    · obtain ⟨failure', heq, hperforms⟩ := h₁.performs hback
      obtain rfl := Ending.returned.inj heq
      obtain ⟨rfl, rfl⟩ := h₂.ret_inv
      exact ⟨failure, rfl, (List.append_nil t₁).symm ▸ hperforms⟩
    · obtain ⟨_, heq, -⟩ := h₁.performs hback
      cases heq
  · rintro ⟨failure, rfl, hperforms⟩
    rw [← List.append_nil t]
    exact hperforms.runs.bind (.ret _)

/-- The call of one prefix after the other, up to the first that fails or does not fit. -/
theorem runs_makes {paths : List (List UInt8)} : Runs Op.Final (makes dir paths) t e ↔
    ∃ failure, e = .returned (outcome failure) ∧
      Performs (paths.map (making dir)) t failure := by
  refine runs_checks fun op judge hmem hfinal => ?_
  obtain ⟨path, -, hpath⟩ := List.mem_map.1 hmem
  unfold making at hpath
  split_ifs at hpath
  cases hpath
  cases hfinal

theorem parentText_of_tail {path : List UInt8} (h : SLASH ∉ path.tail) : parentText path = [] := by
  rcases path with _ | ⟨byte, name⟩
  · rfl
  · rw [List.tail_cons] at h
    by_cases hbyte : byte = SLASH
    · rw [hbyte]
      exact @parentText_slash [] name h
    · exact parentText_of_notMem (by simp [Ne.symm hbyte, h])

/-- Making a path, or the parent of one, calls `mkdirat` for the prefixes of its components, each
longer than the one before, up to the first that fails or does not fit the buffer; but a parent
that does not fit it is refused as a whole. -/
theorem makes_prefixes (dir : CInt) (path : CStr) (t : List (Event Op.Out))
    (e : Ending Op (Except Errno Unit)) :
    (prefixes path.bytes).Pairwise (·.length < ·.length) ∧
      (Runs Op.Final (mkdiratAll dir path.bytes) t e ↔
        ∃ failure, e = .returned (outcome failure) ∧
          Performs ((prefixes path.bytes).map (making dir)) t failure) ∧
      (Runs Op.Final (ensureParentDirs dir path.bytes) t e ↔
        ∃ failure, e = .returned (outcome failure) ∧
          Performs (if (parentText path.bytes).length + 1 ≤ 4096 then
            (prefixes (parentText path.bytes)).map (making dir)
          else [.refuse ENAMETOOLONG]) t failure) ∧
      (SLASH ∉ path.bytes.tail → (Runs Op.Final (ensureParentDirs dir path.bytes) t e ↔
        t = [] ∧ e = .returned (.ok ()))) := by
  have hparent := ensureParentDirs_eq dir path.nul_notMem
  refine ⟨prefixes_increasing _, ?_, ?_, fun htail => ?_⟩
  · rw [mkdiratAll_eq dir path.nul_notMem, runs_makes]
  · rw [hparent]
    split_ifs with hfit
    · exact runs_makes
    · have hback : ∀ op judge, Check.call op judge ∈
          ([.refuse ENAMETOOLONG] : List (Check Op.Out Errno)) → ¬ Op.Final op := by
        intro op judge hmem
        cases List.mem_singleton.1 hmem
      exact runs_checks hback
  · rw [hparent, parentText_of_tail htail, if_pos (by simp)]
    constructor
    · exact fun h => (h.ret_inv).imp_right id
    · rintro ⟨rfl, rfl⟩
      exact .ret _

def rootedName : CStr := ⟨[SLASH, 97], by decide⟩

def nestedName : CStr := ⟨[SLASH, 97, SLASH, SLASH, 98, SLASH, 99, SLASH, 100], by decide⟩

/-- One directory is there already and another is refused: what is below it is not tried. The
parent of the same name is made in full, and a name at the root needs no call at all. -/
theorem nestedName_made :
    Runs Op.Final (mkdiratAll 3 nestedName.bytes)
        [⟨.mkdirat 3 [97] 0o755, .ok ()⟩, ⟨.mkdirat 3 [97, SLASH, 98] 0o755, .error EEXIST⟩,
          ⟨.mkdirat 3 [97, SLASH, 98, SLASH, 99] 0o755, .error EACCES⟩]
        (.returned (.error EACCES)) ∧
      Runs Op.Final (ensureParentDirs 3 nestedName.bytes)
        [⟨.mkdirat 3 [97] 0o755, .ok ()⟩, ⟨.mkdirat 3 [97, SLASH, 98] 0o755, .error EEXIST⟩,
          ⟨.mkdirat 3 [97, SLASH, 98, SLASH, 99] 0o755, .ok ()⟩]
        (.returned (.ok ())) ∧
      Runs Op.Final (ensureParentDirs 3 rootedName.bytes) [] (.returned (.ok ())) := by
  have hwhole : (prefixes nestedName.bytes).map (making 3) =
      [.call (.mkdirat 3 [97] 0o755) refusal, .call (.mkdirat 3 [97, SLASH, 98] 0o755) refusal,
        .call (.mkdirat 3 [97, SLASH, 98, SLASH, 99] 0o755) refusal,
        .call (.mkdirat 3 [97, SLASH, 98, SLASH, 99, SLASH, 100] 0o755) refusal] := rfl
  have hparent : (prefixes (parentText nestedName.bytes)).map (making 3) =
      [.call (.mkdirat 3 [97] 0o755) refusal, .call (.mkdirat 3 [97, SLASH, 98] 0o755) refusal,
        .call (.mkdirat 3 [97, SLASH, 98, SLASH, 99] 0o755) refusal] := rfl
  refine ⟨(makes_prefixes 3 nestedName _ _).2.1.2 ⟨some EACCES, rfl, ?_⟩,
    (makes_prefixes 3 nestedName _ _).2.2.1.2 ⟨none, rfl, ?_⟩,
    ((makes_prefixes 3 rootedName [] _).2.2.2 (by decide)).2 ⟨rfl, rfl⟩⟩
  · rw [hwhole]
    exact .passed rfl (.passed rfl (.failed _ rfl))
  · rw [if_pos (by decide), hparent]
    exact .passed rfl (.passed rfl (.passed rfl .nil))

/-- A parent of one byte too many, which begins with a component that would have fit. -/
def deepPath : CStr where
  bytes := [97] ++ SLASH :: List.replicate 4094 98 ++ SLASH :: [99]
  nul_notMem := by
    simp only [List.mem_cons, List.mem_append, List.mem_replicate, SLASH]
    decide

/-- Its parent is refused, although making that text makes the component before it is refused. -/
theorem deepPath_differs :
    Runs Op.Final (ensureParentDirs 3 deepPath.bytes) [] (.returned (.error ENAMETOOLONG)) ∧
      ¬ Runs Op.Final (mkdiratAll 3 (parentText deepPath.bytes)) []
        (.returned (.error ENAMETOOLONG)) := by
  have hparent : parentText deepPath.bytes = [97] ++ SLASH :: List.replicate 4094 98 :=
    parentText_slash (by decide)
  have hnul : 0 ∉ parentText deepPath.bytes := by
    intro h
    rw [hparent] at h
    exact deepPath.nul_notMem (List.mem_append_left _ h)
  have hlong : ¬ (parentText deepPath.bytes).length + 1 ≤ 4096 := by
    rw [hparent, List.length_append, List.length_cons, List.length_cons, List.length_replicate]
    omega
  constructor
  · rw [ensureParentDirs_eq 3 deepPath.nul_notMem, if_neg hlong]
    exact .ret _
  · rw [mkdiratAll_eq 3 hnul, runs_makes, prefixes_eq, hparent, components_slash (by decide)]
    rintro ⟨failure, -, hperforms⟩
    cases hperforms

end Runs

end Pnut.Child.Directories
