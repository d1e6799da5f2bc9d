import Pnut.Kafel.Policy
import Pnut.Lib.SortedMap

/-!
# Range normalization

The translation of a resolved policy into ranges of syscall numbers, from `codegen/ranges.rs`.
Vectors are lists in the same order. Arithmetic on `u32` goes through `addU32` where the code adds,
since a policy may hold any number.
-/

namespace Pnut.Kafel

instance linearOrderUInt32 : LinearOrder UInt32 where
  le_refl _ := UInt32.le_refl _
  le_trans _ _ _ := UInt32.le_trans
  le_antisymm _ _ := UInt32.le_antisymm
  le_total := UInt32.le_total
  lt_iff_le_not_ge _ _ := by simp only [UInt32.lt_iff_toNat_lt, UInt32.le_iff_toNat_le]; omega
  toDecidableLE := inferInstance
  toDecidableLT := inferInstance
  toDecidableEq := inferInstance

def MAX_SYSCALL_NR : UInt32 := 0x3FF

structure ConditionalMapping where
  expr : Expr
  action : Action
  deriving Repr

inductive RangeAction where
  | unconditional (action : Action)
  | conditional (mappings : List ConditionalMapping) (fallback : Action)
  deriving Repr

structure SyscallRange where
  first : UInt32
  last : UInt32
  action : RangeAction
  deriving Repr

structure SyscallActions where
  unconditional : Option Action := none
  conditionals : List ConditionalMapping := []

/-- One entry recorded: filters in order, and the first action without a filter. -/
def SyscallActions.add (actions : SyscallActions) (entry : PolicyEntry) : SyscallActions :=
  match entry.filter with
  | some expr =>
    { actions with conditionals := actions.conditionals ++ [⟨expr, entry.action⟩] }
  | none =>
    match actions.unconditional with
    | none => { actions with unconditional := some entry.action }
    | some _ => actions

def groupSyscalls (policy : Policy) : SortedMap UInt32 SyscallActions :=
  policy.entries.foldl
    (fun grouped entry => grouped.upsert entry.syscallNumber fun actions =>
      (actions.getD {}).add entry)
    .empty

def rangeAction (actions : SyscallActions) (defaultAction : Action) : RangeAction :=
  let fallback := actions.unconditional.getD defaultAction
  if actions.conditionals.isEmpty then .unconditional fallback
  else .conditional actions.conditionals fallback

def toRange (syscallNumber : UInt32) (actions : SyscallActions) (defaultAction : Action) :
    SyscallRange :=
  ⟨syscallNumber, syscallNumber, rangeAction actions defaultAction⟩

def defaultRange (first last : UInt32) (defaultAction : Action) : SyscallRange :=
  ⟨first, last, .unconditional defaultAction⟩

def sameUnconditionalAction : RangeAction → RangeAction → Bool
  | .unconditional a, .unconditional b => a = b
  | _, _ => false

def pushRange (b : Build) (ranges : List SyscallRange) (range : SyscallRange) :
    Result (List SyscallRange) :=
  match ranges.getLast? with
  | some last => do
    let next ← addU32 b last.last 1
    if next = range.first && sameUnconditionalAction last.action range.action then
      .ok (ranges.dropLast ++ [{ last with last := range.last }])
    else .ok (ranges ++ [range])
  | none => .ok (ranges ++ [range])

def mergeAdjacentUnconditional (b : Build) (ranges : List SyscallRange) :
    Result (List SyscallRange) :=
  ranges.foldlM (pushRange b) []

/-- One range of the loop in `fill_gaps`, with the gap before it filled. -/
def fillStep (b : Build) (defaultAction : Action) :
    List SyscallRange × UInt32 → SyscallRange → Result (List SyscallRange × UInt32)
  | (filled, nextSyscall), range => do
    let filled ←
      if nextSyscall < range.first then
        pushRange b filled (defaultRange nextSyscall (range.first - 1) defaultAction)
      else .ok filled
    let nextSyscall ← addU32 b range.last 1
    let filled ← pushRange b filled range
    .ok (filled, nextSyscall)

def fillGaps (b : Build) (merged : List SyscallRange) (defaultAction : Action) :
    Result (List SyscallRange) :=
  if merged.isEmpty then .ok [defaultRange 0 MAX_SYSCALL_NR defaultAction]
  else do
    let (filled, nextSyscall) ← merged.foldlM (fillStep b defaultAction) ([], 0)
    if nextSyscall ≤ MAX_SYSCALL_NR then
      pushRange b filled (defaultRange nextSyscall MAX_SYSCALL_NR defaultAction)
    else .ok filled

/-- The ranges of a policy, gap-free from 0 to at least `MAX_SYSCALL_NR`. -/
def normalizeRanges (b : Build) (policy : Policy) : Result (List SyscallRange) :=
  if policy.entries.isEmpty then
    .ok [defaultRange 0 MAX_SYSCALL_NR policy.defaultAction]
  else do
    let perSyscall := groupSyscalls policy
    let merged ← mergeAdjacentUnconditional b
      (perSyscall.bindings.map fun (nr, actions) => toRange nr actions policy.defaultAction)
    fillGaps b merged policy.defaultAction

end Pnut.Kafel
