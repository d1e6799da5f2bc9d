import Pnut.Child.Env
import Pnut.Child.Mount

/-!
# Numbers in buffers

The numbers that the mount stage hands to the kernel, rendered without an allocation: the digits
come out last one first and are turned round on their way into the caller's buffer.
-/

namespace Pnut.Child.Digits

open Mount (ENAMETOOLONG)

/-- `none` is an index out of bounds. -/
abbrev BufStep := ExceptT Errno Option

/-- `b'0'`. -/
def ZERO : UInt8 := 48

/-! ## Digits -/

section Digits

variable {V : Type} [DecidableEq V] [OfNat V 0]

/-- `while value != 0`, with the room that is left in the scratch array. -/
def digitLoop (digit : V → UInt8) (next : V → V) :
    ℕ → V → List UInt8 → ℕ → Option (List UInt8 × ℕ)
  | room, value, tmp, len =>
    if value = 0 then some (tmp, len)
    else
      match room with
      | 0 => none
      | room + 1 => do
        let tmp ← store tmp len (ZERO + digit value)
        digitLoop digit next room (next value) tmp (len + 1)

/-- `buf[idx] = tmp[len - 1 - idx]`. -/
def copyDigit (tmp : List UInt8) (len : ℕ) (buf : List UInt8) (idx : ℕ) : Option (List UInt8) := do
  let byte ← tmp[len - 1 - idx]?
  store buf idx byte

/-- The buffer, and how many digits it begins with. -/
def writeDigits (digit : V → UInt8) (next : V → V) (room : ℕ) (value : V) (buf : List UInt8) :
    Option (List UInt8 × ℕ) :=
  if value = 0 then do
    let buf ← store buf 0 ZERO
    pure (buf, 1)
  else do
    let (tmp, len) ← digitLoop digit next room value (List.replicate room 0) 0
    let buf ← (List.range len).foldlM (copyDigit tmp len) buf
    pure (buf, len)

end Digits

def decimalDigits (value : UInt64) (buf : List UInt8) : Option (List UInt8 × ℕ) :=
  writeDigits (fun value : UInt64 => (value % 10).toUInt8) (fun value => value / 10) 20 value buf

def octalDigits (value : UInt32) (buf : List UInt8) : Option (List UInt8 × ℕ) :=
  writeDigits (fun value : UInt32 => (value &&& 7).toUInt8) (fun value => value >>> 3) 16 value buf

/-! ## Strings

A string comes with the buffer that it is the front of. -/

/-- The NUL behind the first bytes of a buffer. -/
def terminated (buf : List UInt8) (len : ℕ) : BufStep (List UInt8 × List UInt8) := do
  let buf ← (store buf len 0 : Option _)
  let cStr ← (subslice buf 0 (len + 1) : Option _)
  pure (cStr, buf)

def decimalCstr (value : UInt64) (buf : List UInt8) : BufStep (List UInt8 × List UInt8) := do
  let (buf, digitsLen) ← (decimalDigits value buf : Option _)
  if buf.length < digitsLen + 1 then throw ENAMETOOLONG else terminated buf digitsLen

def octalCstr (value : UInt32) (buf : List UInt8) : BufStep (List UInt8 × List UInt8) := do
  let (buf, digitsLen) ← (octalDigits value buf : Option _)
  if buf.length < digitsLen + 1 then throw ENAMETOOLONG else terminated buf digitsLen

/-- `b"content-"`. -/
def PREFIX : List UInt8 := [99, 111, 110, 116, 101, 110, 116, 45]

def stagingNameCstr (index : UInt64) (buf : List UInt8) :
    BufStep (List UInt8 × List UInt8) := do
  let buf ← (copyFromSlice buf 0 PREFIX : Option _)
  let (digits, digitsLen) ← (decimalDigits index (List.replicate 20 0) : Option _)
  let total := PREFIX.length + digitsLen
  if buf.length < total + 1 then throw ENAMETOOLONG
  else do
    let digits ← (subslice digits 0 digitsLen : Option _)
    let buf ← (copyFromSlice buf PREFIX.length digits : Option _)
    terminated buf total

end Pnut.Child.Digits
