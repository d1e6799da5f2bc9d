import Pnut.Lib.Flags
import Pnut.Sandbox.Mount

/-!
# The Landlock plan of a sandbox

The configured lists, and what `Landlock::prepare` makes of them. The rights, their bits and the
ABI that each came with are those of the `landlock` crate.
-/

namespace Pnut.Sandbox

open Child (LandlockSpec)
open Flags (BitFlag bit bits)

/-! ## Rights -/

inductive AccessFs where
  | execute | writeFile | readFile | readDir | removeDir | removeFile | makeChar | makeDir
  | makeReg | makeSock | makeFifo | makeBlock | makeSym | refer | truncate | ioctlDev
  deriving DecidableEq, Repr

namespace AccessFs

def pos : AccessFs → ℕ
  | execute => 0
  | writeFile => 1
  | readFile => 2
  | readDir => 3
  | removeDir => 4
  | removeFile => 5
  | makeChar => 6
  | makeDir => 7
  | makeReg => 8
  | makeSock => 9
  | makeFifo => 10
  | makeBlock => 11
  | makeSym => 12
  | refer => 13
  | truncate => 14
  | ioctlDev => 15

/-- The first ABI with the right. -/
def since : AccessFs → ℕ
  | refer => 2
  | truncate => 3
  | ioctlDev => 5
  | _ => 1

def all : List AccessFs :=
  [execute, writeFile, readFile, readDir, removeDir, removeFile, makeChar, makeDir, makeReg,
    makeSock, makeFifo, makeBlock, makeSym, refer, truncate, ioctlDev]

/-- `AccessFs::from_all`. -/
def fromAll (abi : ℕ) : List AccessFs := all.filter (·.since ≤ abi)

instance : BitFlag AccessFs where
  pos := pos
  pos_lt r := by rcases r <;> decide
  pos_injective r s h := by rcases r <;> rcases s <;> first | rfl | cases h

end AccessFs

inductive AccessNet where
  | bindTcp | connectTcp
  deriving DecidableEq, Repr

namespace AccessNet

def pos : AccessNet → ℕ
  | bindTcp => 0
  | connectTcp => 1

/-- The first ABI with the right. -/
def since (_ : AccessNet) : ℕ := 4

/-- `AccessNet::from_all`. -/
def fromAll (abi : ℕ) : List AccessNet := [bindTcp, connectTcp].filter (·.since ≤ abi)

instance : BitFlag AccessNet where
  pos := pos
  pos_lt r := by rcases r <;> decide
  pos_injective r s h := by rcases r <;> rcases s <;> first | rfl | cases h

end AccessNet

/-! ## The plan -/

structure Landlock where
  allowedRead : List String
  allowedWrite : List String
  allowedExecute : List String
  allowedRefer : List String
  allowedTruncate : List String
  allowedBind : List UInt16
  allowedConnect : List UInt16
  allowedIoctlDev : List String

namespace Landlock

/-- The path lists, each with the rights of its rules. -/
def categories (config : Landlock) : List (List String × UInt64) :=
  [(config.allowedRead, bits [AccessFs.readFile, .readDir]),
    (config.allowedWrite, bits (AccessFs.fromAll 1) &&& ~~~bit AccessFs.execute),
    (config.allowedExecute, bits [AccessFs.execute, .readFile, .readDir]),
    (config.allowedRefer, bits [AccessFs.refer]),
    (config.allowedTruncate, bits [AccessFs.truncate]),
    (config.allowedIoctlDev, bits [AccessFs.ioctlDev])]

/-- `compute_landlock_abi`. -/
def computeAbi (config : Landlock) : UInt32 :=
  if !config.allowedIoctlDev.isEmpty then 5
  else if !config.allowedBind.isEmpty || !config.allowedConnect.isEmpty then 4
  else if !config.allowedTruncate.isEmpty then 3
  else if !config.allowedRefer.isEmpty then 2
  else 1

/-- `compute_handled_access_fs`. -/
def computeHandledAccessFs (abi : UInt32) : UInt64 :=
  let mask := bits (AccessFs.fromAll 1)
  let mask := if 2 ≤ abi then mask ||| bits [AccessFs.refer] else mask
  let mask := if 3 ≤ abi then mask ||| bits [AccessFs.truncate] else mask
  if 5 ≤ abi then mask ||| bits [AccessFs.ioctlDev] else mask

def netBind : UInt64 := bit AccessNet.bindTcp
def netConnect : UInt64 := bit AccessNet.connectTcp

def pathRule (rule : String × UInt64) : Except String Child.LandlockPathRule := do
  let path ← allocCstr rule.1 "landlock path"
  pure ⟨path, rule.2⟩

/-- `Landlock::prepare`. -/
def prepare (config : Landlock) : Except String LandlockSpec := do
  let pathRules ← (config.categories.flatMap fun c => c.1.map (·, c.2)).mapM pathRule
  let netRules :=
    config.allowedBind.map (⟨·, netBind⟩) ++ config.allowedConnect.map (⟨·, netConnect⟩)
  let minAbi := config.computeAbi
  let handledAccessFs := computeHandledAccessFs minAbi
  let handledAccessNet : UInt64 := 0
  let handledAccessNet :=
    if !config.allowedBind.isEmpty then handledAccessNet ||| netBind else handledAccessNet
  let handledAccessNet :=
    if !config.allowedConnect.isEmpty then handledAccessNet ||| netConnect else handledAccessNet
  pure ⟨minAbi, ⟨handledAccessFs, handledAccessNet⟩, pathRules, netRules⟩

end Landlock

end Pnut.Sandbox
