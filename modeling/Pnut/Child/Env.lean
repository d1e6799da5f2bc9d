import Pnut.Child.Spec

/-!
# The environment of the child

`env::prepare`, which builds `envp` in the storage of the spec. A step of it ends with an errno, or
stops where the code would read past a NUL or index a slice out of bounds.
-/

namespace Pnut.Child

/-- `=`. -/
def EQUALS : UInt8 := 61

/-- `none` is a read past a terminating NUL, or an index out of bounds. -/
abbrev EnvStep := ExceptT Errno Option

theorem lift_some_bind {β γ : Type} (b : β) (f : β → EnvStep γ) :
    (liftM (some b) : EnvStep β) >>= f = f b := rfl

/-! ## Memory -/

/-- `*entry.add(idx)`. -/
def CStr.read (entry : CStr) (idx : ℕ) : Option UInt8 := (entry.bytes ++ [0])[idx]?

/-- `slice[idx] = a`. -/
def store {α : Type} (slice : List α) (idx : ℕ) (a : α) : Option (List α) :=
  if idx < slice.length then some (slice.set idx a) else none

/-- `slice[start..start + src.len()].copy_from_slice(src)`. -/
def copyFromSlice {α : Type} (slice : List α) (start : ℕ) (src : List α) : Option (List α) :=
  if start + src.length ≤ slice.length then
    some (slice.take start ++ src ++ slice.drop (start + src.length))
  else none

/-- `&slice[start..stop]`. -/
def subslice {α : Type} (slice : List α) (start stop : ℕ) : Option (List α) :=
  if start ≤ stop ∧ stop ≤ slice.length then some ((slice.take stop).drop start) else none

/-! A slice is written at the divide between what is done and the room behind it. -/

section Divide

variable {α : Type} {done room : List α} {n : ℕ}

theorem copyFromSlice_divide (hn : n = done.length) {src : List α}
    (h : src.length ≤ room.length) :
    copyFromSlice (done ++ room) n src = some ((done ++ src) ++ room.drop src.length) := by
  subst hn
  unfold copyFromSlice
  rw [if_pos (by rw [List.length_append]; omega), List.take_left, List.drop_append,
    List.drop_of_length_le (by omega), List.nil_append, Nat.add_sub_cancel_left]

theorem store_divide (hn : n = done.length) (h : 0 < room.length) (a : α) :
    store (done ++ room) n a = some ((done ++ [a]) ++ room.drop 1) := by
  subst hn
  obtain ⟨b, rest, rfl⟩ := List.exists_cons_of_length_pos h
  unfold store
  rw [if_pos (by simp), List.set_append_right _ _ le_rfl, Nat.sub_self]
  simp

theorem subslice_divide {pre cur rest : List α} {start stop : ℕ} (hstart : start = pre.length)
    (hstop : stop = pre.length + cur.length) :
    subslice (pre ++ (cur ++ rest)) start stop = some cur := by
  subst hstart hstop
  unfold subslice
  rw [if_pos (by simp), List.take_length_add_append, List.take_left, List.drop_left]

theorem subslice_done (hn : n = done.length) : subslice (done ++ room) 0 n = some done := by
  rw [← List.nil_append (done ++ room)]
  exact subslice_divide rfl (by simp [hn])

end Divide

namespace Env

/-! ## Keys -/

/-- The loop of `entry_key_eq`, from a byte of the key on, and the read behind it. -/
def keyEqFrom (entry : CStr) : List UInt8 → ℕ → Option Bool
  | [], idx => do
    let byte ← entry.read idx
    pure (byte == EQUALS)
  | expected :: rest, idx => do
    let byte ← entry.read idx
    if byte != expected then pure false else keyEqFrom entry rest (idx + 1)

def entryKeyEq (entry key : CStr) : Option Bool :=
  if key.bytes.contains EQUALS then pure false else keyEqFrom entry key.bytes 0

def matchesAnyKey (entry : CStr) : List CStr → Option Bool
  | [] => pure false
  | key :: keys => do
    if ← entryKeyEq entry key then pure true else matchesAnyKey entry keys

def shouldInclude (entry : CStr) (clear : Bool) (keep : List CStr) (set : List EnvBinding) :
    Option Bool := do
  if ← matchesAnyKey entry (set.map EnvBinding.key) then pure false
  else if clear then matchesAnyKey entry keep
  else pure true

/-! ## The two phases -/

/-- `push_env_ptr`: the slice and its cursor. -/
def pushEnvPtr (envp : List EnvPtr) (len : ℕ) (entry : EnvPtr) : EnvStep (List EnvPtr × ℕ) :=
  if envp.length - 1 ≤ len then throw ENOSPC
  else do
    let envp ← store envp len entry
    pure (envp, len + 1)

/-- `encode_binding`: the pointer, and the slice and its cursor. -/
def encodeBinding (binding : EnvBinding) (bytes : List UInt8) (bytesLen : ℕ) :
    EnvStep (EnvPtr × List UInt8 × ℕ) :=
  let key := binding.key.bytes
  let value := binding.value.bytes
  let needed := key.length + 1 + value.length + 1
  if key.contains EQUALS then throw EINVAL
  else if bytes.length < bytesLen + needed then throw ENOSPC
  else do
    let start := bytesLen
    let bytes ← copyFromSlice bytes start key
    let bytes ← store bytes (start + key.length) EQUALS
    let valueStart := start + key.length + 1
    let bytes ← copyFromSlice bytes valueStart value
    let bytes ← store bytes (valueStart + value.length) 0
    pure (.storage start, bytes, bytesLen + needed)

/-- The walk over the host's entries, from the one at `idx` on, up to the NULL. -/
def pushHost (clear : Bool) (keep : List CStr) (set : List EnvBinding) :
    List CStr → ℕ → List EnvPtr × ℕ → EnvStep (List EnvPtr × ℕ)
  | [], _, out => pure out
  | entry :: rest, idx, (envp, len) => do
    if ← (shouldInclude entry clear keep set : Option Bool) then
      let out ← pushEnvPtr envp len (.host idx)
      pushHost clear keep set rest (idx + 1) out
    else pushHost clear keep set rest (idx + 1) (envp, len)

/-- The loop over the bindings. -/
def pushSet : List EnvBinding → List EnvPtr × ℕ → List UInt8 × ℕ →
    EnvStep ((List EnvPtr × ℕ) × List UInt8)
  | [], out, (bytes, _) => pure (out, bytes)
  | binding :: rest, (envp, len), (bytes, bytesLen) => do
    let (ptr, bytes) ← encodeBinding binding bytes bytesLen
    let out ← pushEnvPtr envp len ptr
    pushSet rest out bytes

/-- The NULL behind the last pointer. -/
def terminate (out : (List EnvPtr × ℕ) × List UInt8) : EnvStep EnvStorage :=
  if out.1.1.length ≤ out.1.2 then throw ENOSPC
  else do
    let envp ← store out.1.1 out.1.2 .null
    pure ⟨envp, out.2⟩

/-- `prepare`. `environ` is the host's environment, up to its NULL; it may be null itself. -/
def prepare (spec : EnvSpec) (environ : Option (List CStr)) : EnvStep EnvStorage := do
  let out ← pushHost spec.clear spec.keep spec.set (environ.getD []) 0 (spec.storage.envp, 0)
  let out ← pushSet spec.set out (spec.storage.bytes, 0)
  terminate out

end Env

end Pnut.Child
