import Pnut.Child.Env

/-!
# What `prepare` makes of an environment

The comparison with a key never comes past the NUL of an entry, since it stops at the first byte
that differs. Both cursors divide a slice into what is written and what is left; each step writes
at the divide, or ends for lack of space.
-/

namespace Pnut.Child

/-! ## Names -/

/-- The text before the first `=`, if there is one. -/
def CStr.name (entry : CStr) : Option (List UInt8) :=
  if EQUALS ∈ entry.bytes then some (entry.bytes.takeWhile (· ≠ EQUALS)) else none

theorem takeWhile_append_equals {before : List UInt8} (h : EQUALS ∉ before)
    (behind : List UInt8) :
    (before ++ EQUALS :: behind).takeWhile (· ≠ EQUALS) = before := by
  have hbefore : ∀ byte ∈ before, decide (byte ≠ EQUALS) = true := by
    intro byte hbyte
    exact decide_eq_true fun heq => h (heq ▸ hbyte)
  rw [List.takeWhile_append_of_pos hbefore]
  simp

theorem CStr.name_eq_some_iff (entry : CStr) {key : List UInt8} :
    entry.name = some key ↔ EQUALS ∉ key ∧ key ++ [EQUALS] <+: entry.bytes := by
  unfold CStr.name
  constructor
  · intro hname
    split_ifs at hname with hmem
    obtain ⟨before, behind, hbytes, hbefore⟩ := List.eq_append_cons_of_mem hmem
    rw [hbytes, takeWhile_append_equals hbefore] at hname
    obtain rfl := Option.some.inj hname
    exact ⟨hbefore, behind, by rw [hbytes, List.append_assoc]; rfl⟩
  · rintro ⟨hkey, behind, hbytes⟩
    rw [List.append_assoc] at hbytes
    rw [← hbytes, if_pos (by simp)]
    exact congrArg some (takeWhile_append_equals hkey behind)

namespace Env

theorem read_of_drop {entry : CStr} {idx : ℕ} {byte : UInt8} {rest : List UInt8}
    (h : entry.bytes.drop idx = byte :: rest) : entry.read idx = some byte := by
  have hlt : idx < entry.bytes.length := by
    by_contra hge
    rw [List.drop_of_length_le (not_lt.1 hge)] at h
    cases h
  unfold CStr.read
  rw [List.getElem?_append_left hlt, ← List.head?_drop, h]
  rfl

theorem read_nul (entry : CStr) : entry.read entry.bytes.length = some 0 := by
  unfold CStr.read
  rw [List.getElem?_append_right le_rfl]
  simp

/-- The comparison reads no further than the NUL, and says whether the key and a `=` stand at
`idx`. -/
theorem keyEqFrom_eq (entry : CStr) {key : List UInt8} (hkey : 0 ∉ key) {idx : ℕ}
    (hidx : idx ≤ entry.bytes.length) :
    keyEqFrom entry key idx = some (decide (key ++ [EQUALS] <+: entry.bytes.drop idx)) := by
  induction key generalizing idx with
  | nil =>
    unfold keyEqFrom
    cases hdrop : entry.bytes.drop idx with
    | nil =>
      obtain rfl := hidx.antisymm (List.drop_eq_nil_iff.1 hdrop)
      rw [read_nul]
      rfl
    | cons byte rest =>
      rw [read_of_drop hdrop]
      show some (byte == EQUALS) = _
      congr 1
      rw [List.nil_append, Bool.eq_iff_iff, beq_iff_eq, decide_eq_true_eq, List.cons_prefix_cons]
      simp [eq_comm]
  | cons expected key ih =>
    have hnul : (0 : UInt8) ≠ expected := fun h => hkey (h ▸ List.mem_cons_self ..)
    unfold keyEqFrom
    cases hdrop : entry.bytes.drop idx with
    | nil =>
      obtain rfl := hidx.antisymm (List.drop_eq_nil_iff.1 hdrop)
      rw [read_nul]
      show (if (0 != expected) = true then some false else _) = _
      rw [if_pos (by simpa using hnul)]
      simp
    | cons byte rest =>
      rw [read_of_drop hdrop]
      show (if (byte != expected) = true then some false else _) = _
      have hlt : idx < entry.bytes.length := by
        by_contra hge
        rw [List.drop_of_length_le (not_lt.1 hge)] at hdrop
        cases hdrop
      have hrest : entry.bytes.drop (idx + 1) = rest := by
        rw [← List.tail_drop, hdrop]
        rfl
      rw [List.cons_append, ih (fun h => hkey (List.mem_cons_of_mem _ h)) hlt, hrest]
      by_cases heq : byte = expected
      · subst heq
        rw [if_neg (by simp)]
        congr 1
        rw [decide_eq_decide, List.cons_prefix_cons, and_iff_right rfl]
      · rw [if_pos (by simpa using heq)]
        congr 1
        refine (decide_eq_false fun h => heq ?_).symm
        exact (List.cons_prefix_cons.1 h).1.symm

theorem entryKeyEq_eq (entry key : CStr) :
    entryKeyEq entry key = some (decide (entry.name = some key.bytes)) := by
  unfold entryKeyEq
  by_cases h : EQUALS ∈ key.bytes
  · rw [if_pos (by simpa using h)]
    exact congrArg some (decide_eq_false fun hname => (entry.name_eq_some_iff.1 hname).1 h).symm
  · rw [if_neg (by simpa using h), keyEqFrom_eq entry key.nul_notMem (Nat.zero_le _)]
    simp only [List.drop_zero, entry.name_eq_some_iff, h, not_false_eq_true, true_and]

theorem matchesAnyKey_eq (entry : CStr) (keys : List CStr) :
    matchesAnyKey entry keys = some (decide (∃ key ∈ keys, entry.name = some key.bytes)) := by
  induction keys with
  | nil => simp [matchesAnyKey]
  | cons key keys ih =>
    unfold matchesAnyKey
    rw [entryKeyEq_eq, ih]
    by_cases h : entry.name = some key.bytes
    · simp [h]
    · simp [h]

/-- The host's entries that the child gets: not one of the set keys', and one to keep if the rest
is cleared. -/
def Included (spec : EnvSpec) (entry : CStr) : Prop :=
  (∀ binding ∈ spec.set, entry.name ≠ some binding.key.bytes) ∧
    (spec.clear → ∃ key ∈ spec.keep, entry.name = some key.bytes)

instance (spec : EnvSpec) : DecidablePred (Included spec) := fun _ =>
  inferInstanceAs (Decidable (_ ∧ _))

theorem shouldInclude_eq (spec : EnvSpec) (entry : CStr) :
    shouldInclude entry spec.clear spec.keep spec.set = some (decide (Included spec entry)) := by
  unfold shouldInclude
  rw [matchesAnyKey_eq, matchesAnyKey_eq]
  by_cases hset : ∃ binding ∈ spec.set, entry.name = some binding.key.bytes
  · have hnot : ¬ Included spec entry := fun h => by
      obtain ⟨binding, hmem, hname⟩ := hset
      exact h.1 binding hmem hname
    simp [hset, hnot]
  · have hall : ∀ binding ∈ spec.set, entry.name ≠ some binding.key.bytes := by
      simpa using hset
    have hiff : Included spec entry ↔
        (spec.clear → ∃ key ∈ spec.keep, entry.name = some key.bytes) := and_iff_right hall
    by_cases hclear : spec.clear = true
    · simp [hset, hclear, hiff]
    · simp [hset, hclear, hiff]

/-- The bytes of a binding's entry. -/
def text (binding : EnvBinding) : List UInt8 :=
  binding.key.bytes ++ EQUALS :: binding.value.bytes

def encoded (binding : EnvBinding) : List UInt8 := text binding ++ [0]

theorem length_encoded (binding : EnvBinding) : (encoded binding).length =
    binding.key.bytes.length + 1 + binding.value.bytes.length + 1 := by
  simp [encoded, text]
  omega

/-- A binding is written whole, or there is no room for it. -/
theorem encodeBinding_eq {binding : EnvBinding} (hkey : EQUALS ∉ binding.key.bytes)
    (done room : List UInt8) :
    encodeBinding binding (done ++ room) done.length =
      if room.length < (encoded binding).length then throw ENOSPC
      else pure (.storage done.length,
        (done ++ encoded binding) ++ room.drop (encoded binding).length,
        (done ++ encoded binding).length) := by
  have hlen := length_encoded binding
  unfold encodeBinding
  rw [if_neg (by simpa using hkey)]
  by_cases hroom : room.length < (encoded binding).length
  · rw [if_pos hroom, if_pos (by rw [List.length_append]; omega)]
  · rw [if_neg hroom, if_neg (by rw [List.length_append]; omega)]
    generalize hroom₁ : room.drop binding.key.bytes.length = room₁
    generalize hroom₂ : room₁.drop 1 = room₂
    generalize hroom₃ : room₂.drop binding.value.bytes.length = room₃
    have hlen₁ : room₁.length = room.length - binding.key.bytes.length := by
      rw [← hroom₁, List.length_drop]
    have hlen₂ : room₂.length = room₁.length - 1 := by rw [← hroom₂, List.length_drop]
    have hlen₃ : room₃.length = room₂.length - binding.value.bytes.length := by
      rw [← hroom₃, List.length_drop]
    have hkey : copyFromSlice (done ++ room) done.length binding.key.bytes =
        some ((done ++ binding.key.bytes) ++ room₁) :=
      hroom₁ ▸ copyFromSlice_divide rfl (by omega)
    have hequals : store ((done ++ binding.key.bytes) ++ room₁)
        (done.length + binding.key.bytes.length) EQUALS =
          some ((done ++ binding.key.bytes ++ [EQUALS]) ++ room₂) :=
      hroom₂ ▸ store_divide (by simp) (by omega) EQUALS
    have hvalue : copyFromSlice ((done ++ binding.key.bytes ++ [EQUALS]) ++ room₂)
        (done.length + binding.key.bytes.length + 1) binding.value.bytes =
          some ((done ++ binding.key.bytes ++ [EQUALS] ++ binding.value.bytes) ++ room₃) :=
      hroom₃ ▸ copyFromSlice_divide (by simp; omega) (by omega)
    have hnul : store ((done ++ binding.key.bytes ++ [EQUALS] ++ binding.value.bytes) ++ room₃)
        (done.length + binding.key.bytes.length + 1 + binding.value.bytes.length) 0 =
          some ((done ++ binding.key.bytes ++ [EQUALS] ++ binding.value.bytes ++ [0]) ++
            room₃.drop 1) :=
      store_divide (by simp; omega) (by omega) 0
    simp only [hkey, hequals, hvalue, hnul, lift_some_bind]
    have hdrop : room₃.drop 1 = room.drop (encoded binding).length := by
      rw [← hroom₃, ← hroom₂, ← hroom₁, List.drop_drop, List.drop_drop, List.drop_drop, hlen]
      congr 1
      omega
    rw [hdrop, List.length_append, hlen]
    simp [encoded, text]

theorem pushEnvPtr_eq (done room : List EnvPtr) (ptr : EnvPtr) :
    pushEnvPtr (done ++ room) done.length ptr =
      if room.length ≤ 1 then throw ENOSPC
      else pure ((done ++ [ptr]) ++ room.drop 1, (done ++ [ptr]).length) := by
  unfold pushEnvPtr
  by_cases hroom : room.length ≤ 1
  · rw [if_pos hroom, if_pos (by rw [List.length_append]; omega)]
  · rw [if_neg hroom, if_neg (by rw [List.length_append]; omega),
      store_divide rfl (by omega), List.length_append]
    rfl

theorem terminate_eq (done room : List EnvPtr) (bytes : List UInt8) :
    terminate ((done ++ room, done.length), bytes) =
      if room.length ≤ 0 then throw ENOSPC
      else pure ⟨(done ++ [.null]) ++ room.drop 1, bytes⟩ := by
  show (if (done ++ room).length ≤ done.length then throw ENOSPC else do
    let envp ← store (done ++ room) done.length .null
    pure ⟨envp, bytes⟩ : EnvStep EnvStorage) = _
  by_cases hroom : room.length ≤ 0
  · rw [if_pos hroom, if_pos (by rw [List.length_append]; omega)]
  · rw [if_neg hroom, if_neg (by rw [List.length_append]; omega), store_divide rfl (by omega)]
    rfl

/-! ## The whole of `envp` -/

/-- The pointers to the entries of the bindings. -/
def setPtrs : List EnvBinding → ℕ → List EnvPtr
  | [], _ => []
  | binding :: rest, offset =>
    .storage offset :: setPtrs rest (offset + (encoded binding).length)

/-- The pointers to the host's entries that the child gets. -/
def hostPtrs (spec : EnvSpec) : List CStr → ℕ → List EnvPtr
  | [], _ => []
  | entry :: rest, idx =>
    if Included spec entry then .host idx :: hostPtrs spec rest (idx + 1)
    else hostPtrs spec rest (idx + 1)

theorem length_setPtrs (bindings : List EnvBinding) (offset : ℕ) :
    (setPtrs bindings offset).length = bindings.length := by
  induction bindings generalizing offset with
  | nil => rfl
  | cons binding rest ih => exact congrArg (· + 1) (ih _)

/-- The bindings and the NULL are written, or there is no room for them. -/
theorem pushSet_terminate {bindings : List EnvBinding}
    (hkeys : ∀ binding ∈ bindings, EQUALS ∉ binding.key.bytes) (ptrs room : List EnvPtr)
    (done left : List UInt8) :
    (pushSet bindings (ptrs ++ room, ptrs.length) (done ++ left, done.length) >>= terminate) =
      if bindings.length < room.length ∧ (bindings.flatMap encoded).length ≤ left.length then
        pure ⟨(ptrs ++ setPtrs bindings done.length ++ [.null]) ++
            room.drop (bindings.length + 1),
          (done ++ bindings.flatMap encoded) ++ left.drop (bindings.flatMap encoded).length⟩
      else throw ENOSPC := by
  induction bindings generalizing ptrs room done left with
  | nil =>
    show terminate ((ptrs ++ room, ptrs.length), done ++ left) = _
    rw [terminate_eq]
    by_cases hroom : room.length ≤ 0
    · rw [if_pos hroom, if_neg fun h => absurd h.1 (Nat.not_lt.2 hroom)]
    · rw [if_neg hroom, if_pos ⟨Nat.not_le.1 hroom, Nat.zero_le _⟩]
      simp [setPtrs]
  | cons binding rest ih =>
    obtain ⟨hkey, hrest⟩ := List.forall_mem_cons.1 hkeys
    have hsize : ((binding :: rest).flatMap encoded).length =
        (encoded binding).length + (rest.flatMap encoded).length := by
      rw [List.flatMap_cons, List.length_append]
    rw [pushSet, bind_assoc, encodeBinding_eq hkey, hsize, List.length_cons]
    by_cases hleft : left.length < (encoded binding).length
    · rw [if_pos hleft, if_neg (by omega)]
      rfl
    · rw [if_neg hleft, pure_bind, bind_assoc, pushEnvPtr_eq]
      by_cases hroom : room.length ≤ 1
      · rw [if_pos hroom, if_neg (by omega)]
        rfl
      · rw [if_neg hroom, pure_bind, ih hrest, List.length_drop, List.length_drop]
        by_cases hfits : rest.length < room.length - 1 ∧
            (rest.flatMap encoded).length ≤ left.length - (encoded binding).length
        · rw [if_pos hfits, if_pos (by omega), List.length_append, List.drop_drop,
            List.drop_drop, List.flatMap_cons]
          simp only [setPtrs, List.append_assoc, List.cons_append, List.nil_append,
            Nat.add_comm 1]
        · rw [if_neg hfits, if_neg (by omega)]

/-- The host's entries are pushed, and the rest follows, or there is no room for it all. -/
theorem pushHost_terminate (spec : EnvSpec)
    (hkeys : ∀ binding ∈ spec.set, EQUALS ∉ binding.key.bytes) (entries : List CStr) (idx : ℕ)
    (ptrs room : List EnvPtr) (bytes : List UInt8) :
    (pushHost spec.clear spec.keep spec.set entries idx (ptrs ++ room, ptrs.length) >>= fun out =>
        pushSet spec.set out (bytes, 0) >>= terminate) =
      if (hostPtrs spec entries idx).length + spec.set.length < room.length ∧
          (spec.set.flatMap encoded).length ≤ bytes.length then
        pure ⟨(ptrs ++ hostPtrs spec entries idx ++ setPtrs spec.set 0 ++ [.null]) ++
            room.drop ((hostPtrs spec entries idx).length + spec.set.length + 1),
          spec.set.flatMap encoded ++ bytes.drop (spec.set.flatMap encoded).length⟩
      else throw ENOSPC := by
  induction entries generalizing idx ptrs room with
  | nil =>
    have h := pushSet_terminate hkeys ptrs room [] bytes
    simpa [pushHost, hostPtrs] using h
  | cons entry rest ih =>
    rw [pushHost, shouldInclude_eq, bind_assoc, lift_some_bind]
    by_cases hincluded : Included spec entry
    · have hptrs : hostPtrs spec (entry :: rest) idx =
          .host idx :: hostPtrs spec rest (idx + 1) := if_pos hincluded
      rw [hptrs, decide_eq_true hincluded, if_pos rfl, bind_assoc, pushEnvPtr_eq,
        List.length_cons]
      by_cases hroom : room.length ≤ 1
      · rw [if_pos hroom, if_neg (by omega)]
        rfl
      · rw [if_neg hroom, pure_bind, ih, List.length_drop]
        by_cases hfits : (hostPtrs spec rest (idx + 1)).length + spec.set.length <
            room.length - 1 ∧ (spec.set.flatMap encoded).length ≤ bytes.length
        · rw [if_pos hfits, if_pos (by omega), List.drop_drop]
          simp only [List.append_assoc, List.cons_append, List.nil_append, Nat.add_comm 1,
            Nat.add_right_comm]
        · rw [if_neg hfits, if_neg (by omega)]
    · have hptrs : hostPtrs spec (entry :: rest) idx = hostPtrs spec rest (idx + 1) :=
        if_neg hincluded
      rw [hptrs, decide_eq_false hincluded, if_neg (by simp), ih]

/-! ## Reading it back -/

/-- What a pointer points to, up to the NUL behind it. -/
def pointee (environ : List CStr) (bytes : List UInt8) : EnvPtr → Option (List UInt8)
  | .null => none
  | .host idx => environ[idx]?.map CStr.bytes
  | .storage offset =>
    if 0 ∈ bytes.drop offset then some ((bytes.drop offset).takeWhile (· ≠ 0)) else none

theorem pointee_storage (environ : List CStr) (bytes : List UInt8) (offset : ℕ) :
    pointee environ bytes (.storage offset) =
      if 0 ∈ bytes.drop offset then some ((bytes.drop offset).takeWhile (· ≠ 0)) else none := rfl

theorem map_pointee_hostPtrs (spec : EnvSpec) (bytes : List UInt8) (before entries : List CStr) :
    (hostPtrs spec entries before.length).map (pointee (before ++ entries) bytes) =
      (entries.filter (Included spec ·)).map fun entry => some entry.bytes := by
  induction entries generalizing before with
  | nil => rfl
  | cons entry rest ih =>
    have hrest := ih (before ++ [entry])
    rw [List.append_assoc, List.length_append, List.length_singleton,
      List.singleton_append] at hrest
    unfold hostPtrs
    by_cases h : Included spec entry
    · rw [if_pos h, List.filter_cons_of_pos (by simpa using h), List.map_cons, List.map_cons,
        hrest]
      simp [pointee]
    · rw [if_neg h, List.filter_cons_of_neg (by simpa using h), hrest]

theorem text_noNul (binding : EnvBinding) : 0 ∉ text binding := by
  intro h
  rcases List.mem_append.1 h with h | h
  · exact binding.key.nul_notMem h
  · rcases List.mem_cons.1 h with h | h
    · exact absurd h (by decide)
    · exact binding.value.nul_notMem h

theorem map_pointee_setPtrs (environ : List CStr) (bindings : List EnvBinding)
    (before behind : List UInt8) :
    (setPtrs bindings before.length).map
        (pointee environ (before ++ (bindings.flatMap encoded ++ behind))) =
      bindings.map fun binding => some (text binding) := by
  induction bindings generalizing before with
  | nil => rfl
  | cons binding rest ih =>
    have hrest := ih (before ++ encoded binding)
    rw [List.length_append, List.append_assoc, ← List.append_assoc (encoded binding),
      ← List.flatMap_cons] at hrest
    have hbefore : ∀ byte ∈ text binding, decide (byte ≠ 0) = true := by
      intro byte hbyte
      exact decide_eq_true fun heq => text_noNul binding (heq ▸ hbyte)
    rw [setPtrs, List.map_cons, List.map_cons, hrest]
    rw [pointee_storage, List.drop_left, List.flatMap_cons, encoded, List.append_assoc,
      List.append_assoc, if_pos (by simp), List.takeWhile_append_of_pos hbefore]
    simp

/-- The storage is large enough for the entries and the NULL, and for the bytes of the bindings. -/
def Fits (spec : EnvSpec) (environ : List CStr) : Prop :=
  (environ.filter (Included spec ·)).length + spec.set.length < spec.storage.envp.length ∧
    (spec.set.flatMap encoded).length ≤ spec.storage.bytes.length

instance (spec : EnvSpec) (environ : List CStr) : Decidable (Fits spec environ) :=
  inferInstanceAs (Decidable (_ ∧ _))

theorem length_hostPtrs (spec : EnvSpec) (entries : List CStr) (idx : ℕ) :
    (hostPtrs spec entries idx).length = (entries.filter (Included spec ·)).length := by
  induction entries generalizing idx with
  | nil => rfl
  | cons entry rest ih =>
    unfold hostPtrs
    by_cases h : Included spec entry
    · rw [if_pos h, List.filter_cons_of_pos (by simpa using h)]
      exact congrArg (· + 1) (ih _)
    · rw [if_neg h, List.filter_cons_of_neg (by simpa using h)]
      exact ih _

/-- The storage that `prepare` fills, if everything fits. -/
theorem prepare_run (spec : EnvSpec) (environ : Option (List CStr))
    (hset : ∀ binding ∈ spec.set, EQUALS ∉ binding.key.bytes) :
    (prepare spec environ).run = some (if Fits spec (environ.getD []) then
      .ok ⟨(hostPtrs spec (environ.getD []) 0 ++ setPtrs spec.set 0 ++ [.null]) ++
          spec.storage.envp.drop ((hostPtrs spec (environ.getD []) 0).length + spec.set.length + 1),
        spec.set.flatMap encoded ++ spec.storage.bytes.drop (spec.set.flatMap encoded).length⟩
    else .error ENOSPC) := by
  have h := pushHost_terminate spec hset (environ.getD []) 0 [] spec.storage.envp
    spec.storage.bytes
  rw [length_hostPtrs, List.nil_append, List.nil_append] at h
  rw [length_hostPtrs]
  by_cases hfits : Fits spec (environ.getD [])
  · rw [if_pos hfits]
    rw [if_pos (show _ ∧ _ from hfits)] at h
    exact h
  · rw [if_neg hfits]
    rw [if_neg (show ¬ (_ ∧ _) from hfits)] at h
    exact h

/-- With room for it, `prepare` returns the host's entries that are included, by their own
pointers, then one entry for each binding, and a NULL; without room it returns `ENOSPC`. It never
reads past a NUL, nor writes outside the storage. -/
theorem prepare_eq (spec : EnvSpec) (environ : Option (List CStr))
    (hset : ∀ binding ∈ spec.set, EQUALS ∉ binding.key.bytes) :
    if Fits spec (environ.getD []) then
      ∃ storage, (prepare spec environ).run = some (.ok storage) ∧
        hostPtrs spec (environ.getD []) 0 ++ setPtrs spec.set 0 ++ [.null] <+: storage.envp ∧
        (hostPtrs spec (environ.getD []) 0 ++ setPtrs spec.set 0).map
            (pointee (environ.getD []) storage.bytes) =
          ((environ.getD []).filter (Included spec ·)).map (fun entry => some entry.bytes) ++
            spec.set.map (fun binding => some (text binding)) ∧
        storage.envp.length = spec.storage.envp.length ∧
        storage.bytes.length = spec.storage.bytes.length
    else (prepare spec environ).run = some (.error ENOSPC) := by
  have h := prepare_run spec environ hset
  by_cases hfits : Fits spec (environ.getD [])
  · rw [if_pos hfits] at h ⊢
    refine ⟨_, h, ⟨_, rfl⟩, ?_, ?_, ?_⟩
    · rw [List.map_append]
      congr 1
      · exact map_pointee_hostPtrs spec _ [] (environ.getD [])
      · exact map_pointee_setPtrs (environ.getD []) spec.set [] _
    · have := hfits.1
      simp only [List.length_append, List.length_drop, length_hostPtrs, length_setPtrs,
        List.length_singleton]
      omega
    · have := hfits.2
      rw [List.length_append, List.length_drop]
      omega
  · rw [if_neg hfits] at h ⊢
    exact h

/-- `clear`, with `A` to keep and `C=2` to set. -/
def clearedSpec : EnvSpec :=
  ⟨true, [⟨[65], by decide⟩], [⟨⟨[67], by decide⟩, ⟨[50], by decide⟩⟩],
    ⟨List.replicate 3 .null, List.replicate 4 0⟩⟩

/-- `A=1`, `B`, `C=0` and the empty entry. -/
def shellEnviron : List CStr :=
  [⟨[65, 61, 49], by decide⟩, ⟨[66], by decide⟩, ⟨[67, 61, 48], by decide⟩, ⟨[], by decide⟩]

theorem prepare_clearedSpec : ∃ storage,
    (prepare clearedSpec (some shellEnviron)).run = some (.ok storage) ∧
      [.host 0, .storage 0, .null] <+: storage.envp ∧
      [.host 0, .storage 0].map (pointee shellEnviron storage.bytes) =
        [some [65, 61, 49], some [67, 61, 50]] := by
  have h := prepare_eq clearedSpec (some shellEnviron) (List.forall_mem_singleton.2 (by decide))
  rw [if_pos (by decide +kernel)] at h
  obtain ⟨storage, hrun, henvp, htext, -, -⟩ := h
  have hptrs : hostPtrs clearedSpec shellEnviron 0 = [.host 0] := by decide +kernel
  have hhost : shellEnviron.filter (Included clearedSpec ·) = [⟨[65, 61, 49], by decide⟩] := by
    rfl
  rw [Option.getD_some, hptrs] at henvp htext
  rw [hhost] at htext
  exact ⟨storage, hrun, henvp, htext⟩

end Env

end Pnut.Child
