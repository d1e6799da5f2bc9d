import Pnut.Lib.Loop
import Pnut.Child.Spec

/-!
# Completion records

The record byte by byte, as `emit` lays it out and writes it, and as the parent decodes it. Where
the code would index out of bounds or copy between slices of two lengths, the layout is `none`.
-/

namespace Pnut.Child

open Program

def EINTR : Errno := 4

/-! ## Little-endian integers -/

/-- `u16::to_le_bytes`. -/
def u16ToLeBytes (v : UInt16) : List UInt8 := [v.toUInt8, (v >>> 8).toUInt8]

/-- `u32::to_le_bytes`. -/
def u32ToLeBytes (v : UInt32) : List UInt8 :=
  [v.toUInt8, (v >>> 8).toUInt8, (v >>> 16).toUInt8, (v >>> 24).toUInt8]

/-- `u16::from_le_bytes`. -/
def u16FromLeBytes (b₀ b₁ : UInt8) : UInt16 := UInt16.ofNat (b₀.toNat + 2 ^ 8 * b₁.toNat)

/-- `u32::from_le_bytes`. -/
def u32FromLeBytes (b₀ b₁ b₂ b₃ : UInt8) : UInt32 :=
  UInt32.ofNat (b₀.toNat + 2 ^ 8 * b₁.toNat + 2 ^ 16 * b₂.toNat + 2 ^ 24 * b₃.toNat)

/-! ## Writing -/

/-- The calls of `write_all` and `fd::close`. A write takes at most what it is given. -/
inductive IoOp where
  | write (fd : CInt) (buf : List UInt8)
  | close (fd : CInt)

abbrev IoOp.Out : IoOp → Type
  | .write _ buf => Except Errno (Fin (buf.length + 1))
  | .close _ => Except Errno Unit

/-- No call stays away. -/
def IoOp.Final (_ : IoOp) : Prop := False

/-- `write_all`, by the number of bytes written. -/
def writeAllLoop (fd : CInt) (buf : List UInt8) : Loop IoOp IoOp.Out ℕ (Except Errno Unit) :=
  fun written =>
    if written < buf.length then do
      match ← Prog.perform (IoOp.write fd (buf.drop written)) with
      | .ok ret => if 0 < ret.val then pure (.inl (written + ret)) else pure (.inr (.error EPIPE))
      | .error err => if err = EINTR then pure (.inl written) else pure (.inr (.error err))
    else pure (.inr (.ok ()))

namespace Completion

def BINDING_LEN : ℕ := 32
def RECORD_LEN : ℕ := 42

def VERSION : UInt16 := 1

/-- `b"PCMP"`. -/
def TAG : List UInt8 := [80, 67, 77, 80]

/-! ## Emitting -/

/-- `bytes[start..stop].copy_from_slice(src)`. -/
def copyInto (bytes : List UInt8) (start stop : ℕ) (src : List UInt8) : Option (List UInt8) :=
  if start ≤ stop ∧ stop ≤ bytes.length ∧ src.length = stop - start then
    some (bytes.take start ++ src ++ bytes.drop stop)
  else none

/-- The array that `emit` writes. -/
def record (binding : Vector UInt8 32) (completeStageMask : UInt32) : Option (List UInt8) := do
  let bytes := List.replicate RECORD_LEN 0
  let bytes ← copyInto bytes 0 2 (u16ToLeBytes VERSION)
  let bytes ← copyInto bytes 2 6 TAG
  let bytes ← copyInto bytes 6 (6 + BINDING_LEN) binding.toList
  copyInto bytes (6 + BINDING_LEN) bytes.length (u32ToLeBytes completeStageMask)

/-- `emit`, from its write on. -/
def emit (sink : CompletionSink) (bytes : List UInt8) : Loop IoOp IoOp.Out ℕ (Except Errno Unit) :=
  (writeAllLoop sink.fd bytes).andThen fun
    | .ok () => Prog.perform (IoOp.close sink.fd)
    | .error err => pure (.error err)

/-! ## Decoding -/

inductive DecodeError where
  | length | version | tag | binding | stageMask
  deriving DecidableEq, Repr

/-- `CompletionRecord`. -/
structure Record where
  binding : Vector UInt8 32
  completeStageMask : UInt32
  deriving DecidableEq

/-- `bytes[start..stop]`. -/
def slice (bytes : List UInt8) (start stop : ℕ) : List UInt8 := (bytes.take stop).drop start

theorem length_slice {bytes : List UInt8} {start stop : ℕ} (h : stop ≤ bytes.length) :
    (slice bytes start stop).length = stop - start := by
  unfold slice
  rw [List.length_drop, List.length_take, Nat.min_eq_left h]

/-- `CompletionRecord::decode`. -/
def decode (bytes : List UInt8) (expectedBinding : Vector UInt8 32) : Except DecodeError Record :=
  if h : bytes.length = 42 then
    if u16FromLeBytes bytes[0] bytes[1] ≠ VERSION then .error .version
    else if slice bytes 2 6 ≠ TAG then .error .tag
    else
      let binding : Vector UInt8 32 :=
        ⟨(slice bytes 6 38).toArray, length_slice (by omega)⟩
      if binding ≠ expectedBinding then .error .binding
      else
        let completeStageMask := u32FromLeBytes bytes[38] bytes[39] bytes[40] bytes[41]
        if completeStageMask ≠ COMPLETE_STAGE_MASK then .error .stageMask
        else .ok ⟨binding, completeStageMask⟩
  else .error .length

end Completion

end Pnut.Child
