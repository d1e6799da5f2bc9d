import Pnut.Child.Env

/-!
# The environment of a sandbox

The configured environment, and what `Environment::prepare` reserves for the child. An error is
the text of an `InvalidConfig`.
-/

namespace Pnut.Sandbox

open Child (CStr EnvBinding EnvSpec EQUALS)

/-- `Environment`. The map `set` is the list of what it iterates over. -/
structure Environment where
  clear : Bool
  set : List (String × String)
  keep : List String
  nodup : (set.map Prod.fst).Nodup

/-- `s.as_bytes()`. -/
def asBytes (s : String) : List UInt8 := s.toUTF8.data.toList

/-- `alloc_cstr`, down to the bytes. -/
def allocBytes (s context : String) : Except String CStr :=
  if h : 0 ∈ asBytes s then .error (context ++ ": interior null byte in \"" ++ s ++ "\"")
  else .ok ⟨asBytes s, h⟩

def allocBinding (kv : String × String) : Except String EnvBinding := do
  let key ← allocBytes kv.1 "env set key"
  let value ← allocBytes kv.2 "env set value"
  pure ⟨key, value⟩

/-- Whether `vars_os` returns an entry: a `=` stands behind its first byte. -/
def isVar (entry : CStr) : Bool := (entry.bytes.drop 1).contains EQUALS

/-- `std::env::vars_os`, over the host's environment up to its NULL; it may be null itself. -/
def varsOs (environ : Option (List CStr)) : List CStr := (environ.getD []).filter isVar

/-- `Environment::prepare`. -/
def Environment.prepare (e : Environment) (environ : Option (List CStr)) :
    Except String EnvSpec := do
  let keep ← e.keep.mapM (allocBytes · "env keep key")
  let set ← e.set.mapM allocBinding
  let envpCapacity :=
    if e.clear then keep.length + set.length + 1
    else (varsOs environ).length + set.length + 1
  let bytesCapacity :=
    (set.map fun b => b.key.bytes.length + 1 + b.value.bytes.length + 1).sum
  pure ⟨e.clear, keep, set, ⟨List.replicate envpCapacity .null, List.replicate bytesCapacity 0⟩⟩

end Pnut.Sandbox
