import Pnut.Lib.Flags
import Pnut.Lib.Program
import Pnut.Child.Spec

/-!
# Capabilities in the child

`caps::apply`, and what the kernel does to the capability sets of the thread that calls it. A set
is a word with a bit for each capability, as the kernel has it.
-/

namespace Pnut.Child

open Program

namespace Caps

def LINUX_CAPABILITY_VERSION_3 : UInt32 := 0x20080522

def PR_CAPBSET_DROP : CInt := 24
def PR_CAP_AMBIENT : CInt := 47
def PR_CAP_AMBIENT_CLEAR_ALL : UInt64 := 4

/-! ## Applying -/

structure UserCapHeader where
  version : UInt32
  pid : CInt

structure UserCapData where
  effective : UInt32
  permitted : UInt32
  inheritable : UInt32

inductive CapOp where
  | prctl (option : CInt) (arg2 : UInt64)
  | capset (header : UserCapHeader) (data : Vector UserCapData 2)

abbrev CapOp.Out (_ : CapOp) : Type := Except Errno Unit

abbrev CapProg := ExceptT Errno (Prog CapOp CapOp.Out)

/-- `prctl_raw`, with zeros behind the second argument. -/
def prctlRaw (option : CInt) (arg2 : UInt64) : CapProg Unit := Prog.perform (.prctl option arg2)

/-- The loop over `bounding_drop`. -/
def dropBounding : List UInt32 → CapProg Unit
  | [] => pure ()
  | cap :: rest => do
    prctlRaw PR_CAPBSET_DROP cap.toUInt64
    dropBounding rest

def apply (spec : CapsSpec) : CapProg Unit := do
  if spec.clearAmbient then prctlRaw PR_CAP_AMBIENT PR_CAP_AMBIENT_CLEAR_ALL
  dropBounding spec.boundingDrop
  let header : UserCapHeader := ⟨LINUX_CAPABILITY_VERSION_3, 0⟩
  let data : Vector UserCapData 2 :=
    #v[⟨spec.effective[0], spec.permitted[0], spec.inheritable[0]⟩,
      ⟨spec.effective[1], spec.permitted[1], spec.inheritable[1]⟩]
  Prog.perform (CapOp.capset header data)

/-- The words of the plan as `capset` takes them. -/
def capData (spec : CapsSpec) : Vector UserCapData 2 :=
  #v[⟨spec.effective[0], spec.permitted[0], spec.inheritable[0]⟩,
    ⟨spec.effective[1], spec.permitted[1], spec.inheritable[1]⟩]

/-! ## The kernel -/

/-- The capability sets of a thread. -/
structure CapState where
  effective : UInt64
  permitted : UInt64
  inheritable : UInt64
  bounding : UInt64
  ambient : UInt64

/-- The set in two words, the lower capabilities in the first. -/
def ofWords (w₀ w₁ : UInt32) : UInt64 := w₀.toUInt64 ||| w₁.toUInt64 <<< 32

/-- The effect of `capset`. What is not permitted and inheritable is not ambient either. -/
def CapState.assign (w : CapState) (data : Vector UserCapData 2) : CapState :=
  let permitted := ofWords data[0].permitted data[1].permitted
  let inheritable := ofWords data[0].inheritable data[1].inheritable
  { effective := ofWords data[0].effective data[1].effective
    permitted := permitted
    inheritable := inheritable
    bounding := w.bounding
    ambient := w.ambient &&& permitted &&& inheritable }

/-- A call that fails, for whatever reason, changes nothing. `PR_CAPBSET_DROP` refuses what is no
capability. -/
inductive Answers : CapState → (op : CapOp) → CapOp.Out op → CapState → Prop
  | failed (w : CapState) (op : CapOp) (err : Errno) : Answers w op (.error err) w
  | ambient (w : CapState) :
      Answers w (.prctl PR_CAP_AMBIENT PR_CAP_AMBIENT_CLEAR_ALL) (.ok ()) { w with ambient := 0 }
  | drop (w : CapState) (cap : UInt64) : cap < 64 →
      Answers w (.prctl PR_CAPBSET_DROP cap) (.ok ())
        { w with bounding := w.bounding &&& ~~~(1 <<< cap) }
  | capset (w : CapState) (data : Vector UserCapData 2) :
      Answers w (.capset ⟨LINUX_CAPABILITY_VERSION_3, 0⟩ data) (.ok ()) (w.assign data)

end Caps

end Pnut.Child
