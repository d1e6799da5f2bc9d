import Pnut.Kafel.Builders

/-!
# Permissions on the command line

`parse_perms`, which reads the mode of a tmpfs in octal and takes what it cannot read for 0.
-/

namespace Pnut.Cli

open Kafel (toDigit)

/-- The value of more digits after `acc`, unless it leaves `u32` on the way. -/
def digits (radix : ℕ) : ℕ → List Char → Option UInt32
  | acc, [] => some (UInt32.ofNat acc)
  | acc, c :: s =>
    match toDigit radix c with
    | none => none
    | some d => if acc * radix + d < 2 ^ 32 then digits radix (acc * radix + d) s else none

/-- `u32::from_str_radix`. -/
def fromStrRadix (radix : ℕ) : List Char → Option UInt32
  | [] => none
  | '+' :: s => if s = [] then none else digits radix 0 s
  | s => digits radix 0 s

/-- `strip_prefix('0').unwrap_or(perms)`. -/
def stripZero : List Char → List Char
  | '0' :: s => s
  | perms => perms

def parsePerms (perms : List Char) : UInt32 :=
  let s := stripZero perms
  if s = [] then 0 else (fromStrRadix 8 s).getD 0

end Pnut.Cli
