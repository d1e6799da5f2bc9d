import Pnut.Child.Spec

/-!
# The capabilities of a sandbox

`Capabilities::prepare`. The capabilities are those that the `caps` crate knows; `all` lists them in
the order in which the set iterates.
-/

namespace Pnut.Sandbox

open Child (CapsSpec)

/-- `caps::Capability`, with its `index` and `caps::all()`. -/
class Capability (C : Type) where
  index : C → UInt8
  all : List C
  mem_all (c : C) : c ∈ all
  nodup_all : all.Nodup
  index_lt (c : C) : index c < 64
  index_injective : Function.Injective index

structure Capabilities (C : Type) where
  keep : List C

namespace Capabilities

/-- `words[idx] |= bit`. -/
def orAssign (words : Vector UInt32 2) (idx : Fin 2) (bit : UInt32) : Vector UInt32 2 :=
  words.set idx (words[idx] ||| bit)

/-- The word and the bit of a capability's number. -/
def addBit (words : Vector UInt32 2) (nr : UInt32) : Vector UInt32 2 :=
  orAssign words (if 31 < nr then 1 else 0) (1 <<< (nr % 32))

variable {C : Type} [Capability C]

/-- The words after the loop over the capabilities to keep. The loop writes three such arrays. -/
def words (keep : List C) : Vector UInt32 2 :=
  keep.foldl (fun words cap => addBit words (Capability.index cap).toUInt32) #v[0, 0]

/-- `Capabilities::prepare`. -/
def prepare (config : Capabilities C) : CapsSpec :=
  let keepSet := config.keep.map Capability.index
  { effective := words config.keep
    permitted := words config.keep
    inheritable := words config.keep
    boundingDrop :=
      (Capability.all.filter fun c : C => !keepSet.contains (Capability.index c)).map
        fun c => (Capability.index c).toUInt32
    clearAmbient := true }

end Capabilities

end Pnut.Sandbox
