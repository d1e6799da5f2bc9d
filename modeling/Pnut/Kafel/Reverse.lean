import Pnut.Kafel.ExprBuf
import Pnut.Kafel.Ranges

/-!
# Reverse emission

The code generator, from `codegen/reverse.rs`: ranges become a balanced search tree over the
syscall number, filters a chain of expression code, actions shared `BPF_RET` sites. The buffer is
filled backwards, as in `ExprBuf`. A hash map is a list of bindings, the newest first.
-/

namespace Pnut.Kafel

open Bpf (SockFilter)
open Libc

def MAX_JUMP : ℕ := 255

def FALSE_EXIT_PLACEHOLDER : UInt32 := 0xDEAD0001
def TRUE_EXIT_PLACEHOLDER : UInt32 := 0xDEAD0002

/-- A jump destination: an instruction of the buffer, or an action whose `BPF_RET` is found or
emitted when it is needed. -/
inductive Target where
  | location (loc : ℕ)
  | action (id : ℕ)
  deriving DecidableEq, Repr

structure ReverseCodegen where
  buffer : List SockFilter := []
  actionTable : List UInt32 := []
  actionIds : List (UInt32 × ℕ) := []
  actionLocCache : List (ℕ × ℕ) := []

namespace ReverseCodegen

def new : ReverseCodegen := {}

def registerAction (cg : ReverseCodegen) (retVal : UInt32) : ℕ × ReverseCodegen :=
  match cg.actionIds.lookup retVal with
  | some actionId => (actionId, cg)
  | none =>
    let actionId := cg.actionTable.length
    (actionId,
      { cg with
        actionTable := cg.actionTable ++ [retVal]
        actionIds := (retVal, actionId) :: cg.actionIds })

def currentLoc (cg : ReverseCodegen) : ℕ := cg.buffer.length - 1

def locToJump (cg : ReverseCodegen) (loc : ℕ) : ℕ := cg.currentLoc - loc

def addInstruction (cg : ReverseCodegen) (insn : SockFilter) : ℕ × ReverseCodegen :=
  let cg := { cg with buffer := insn :: cg.buffer }
  (cg.currentLoc, cg)

def emitStmt (cg : ReverseCodegen) (code : UInt16) (k : UInt32) : ℕ × ReverseCodegen :=
  cg.addInstruction ⟨code, 0, 0, k⟩

/-- A fresh `BPF_RET` site, remembered as the most recent one of its action. -/
def emitAction (cg : ReverseCodegen) (actionId : ℕ) : ℕ × ReverseCodegen :=
  let retVal := cg.actionTable.getD actionId 0
  let (loc, cg) := cg.emitStmt BPF_RET_K retVal
  (loc, { cg with actionLocCache := (actionId, loc) :: cg.actionLocCache })

def resolveAction (cg : ReverseCodegen) (actionId : ℕ) : ℕ × ReverseCodegen :=
  match cg.actionLocCache.lookup actionId with
  | some loc => if cg.locToJump loc ≤ MAX_JUMP then (loc, cg) else cg.emitAction actionId
  | none => cg.emitAction actionId

def resolveTarget (cg : ReverseCodegen) : Target → ℕ × ReverseCodegen
  | .location loc => (loc, cg)
  | .action actionId => cg.resolveAction actionId

def ensureJumpableTarget (cg : ReverseCodegen) (target : Target) : ℕ × ReverseCodegen :=
  let (loc, cg) := cg.resolveTarget target
  let distance := cg.locToJump loc
  if MAX_JUMP < distance then cg.addInstruction ⟨BPF_JMP_JA, 0, 0, UInt32.ofNat distance⟩
  else (loc, cg)

/-- The distances are narrowed to `u8`; the debug assertions that they fit are the code's own. -/
def addJump (b : Build) (cg : ReverseCodegen) (bpfType : UInt16) (k : UInt32)
    (tloc floc : Target) : Result (ℕ × ReverseCodegen) :=
  if tloc = floc then .ok (cg.resolveTarget tloc)
  else
    let (floc, cg) := cg.ensureJumpableTarget floc
    let (tloc, cg) := cg.ensureJumpableTarget tloc
    let (tloc, cg) := cg.ensureJumpableTarget (.location tloc)
    let jtDist := cg.locToJump tloc
    let jfDist := cg.locToJump floc
    if b.debugAssertions && decide (MAX_JUMP < jtDist) then
      panicWith s!"jt distance {jtDist} exceeds max after trampolining"
    else if b.debugAssertions && decide (MAX_JUMP < jfDist) then
      panicWith s!"jf distance {jfDist} exceeds max after trampolining"
    else
      .ok (cg.addInstruction
        ⟨BPF_JMP ||| bpfType, UInt8.ofNat jtDist, UInt8.ofNat jfDist, k⟩)

def addJumpGe (b : Build) (cg : ReverseCodegen) (than : UInt32) (tloc floc : Target) :
    Result (ℕ × ReverseCodegen) :=
  if than = 0 then .ok (cg.resolveTarget tloc) else addJump b cg BPF_JGE than tloc floc

def actionTarget (cg : ReverseCodegen) (action : Action) : Target × ReverseCodegen :=
  let (actionId, cg) := cg.registerAction (actionToRet action)
  (.action actionId, cg)

def emitPlaceholderJump (cg : ReverseCodegen) (targetLoc : ℕ) : ReverseCodegen :=
  (cg.addInstruction ⟨BPF_JMP_JA, 0, 0, UInt32.ofNat (cg.locToJump targetLoc)⟩).2

/-- The expression's instructions in the order the chain pushes them, oldest last. -/
def lowerExprWithPlaceholders (expr : Expr) : Result (List SockFilter) := do
  let exprBuf : ExprBuf := ExprBuf.emitStmt [] BPF_RET_K FALSE_EXIT_PLACEHOLDER
  let falseExit := exprBuf.currentLoc
  let exprBuf := exprBuf.emitStmt BPF_RET_K TRUE_EXIT_PLACEHOLDER
  let trueExit := exprBuf.currentLoc
  let (_, exprBuf) ← generateExpr exprBuf expr trueExit falseExit
  .ok exprBuf

/-- One instruction of a lowered expression copied into the program, a placeholder exit as a jump
to its target. -/
def placeInsn (trueTarget falseTarget : ℕ) (insn : SockFilter) (cg : ReverseCodegen) :
    ReverseCodegen :=
  if insn.code = BPF_RET_K ∧ insn.k = FALSE_EXIT_PLACEHOLDER then
    cg.emitPlaceholderJump falseTarget
  else if insn.code = BPF_RET_K ∧ insn.k = TRUE_EXIT_PLACEHOLDER then
    cg.emitPlaceholderJump trueTarget
  else (cg.addInstruction insn).2

/-- One mapping of the chain, in front of what decides the mappings after it. -/
def chainStep (state : Target × ReverseCodegen) (mapping : ConditionalMapping) :
    Result (Target × ReverseCodegen) := do
  let (nextTarget, cg) := state
  let (actionTarget, cg) := cg.actionTarget mapping.action
  let (falseTarget, cg) := cg.ensureJumpableTarget nextTarget
  let (trueTarget, cg) := cg.ensureJumpableTarget actionTarget
  let exprInsns ← lowerExprWithPlaceholders mapping.expr
  let cg := exprInsns.foldr (placeInsn trueTarget falseTarget) cg
  .ok (.location cg.currentLoc, cg)

def emitConditionalChain (cg : ReverseCodegen) (mappings : List ConditionalMapping)
    (fallback : Action) : Result (ℕ × ReverseCodegen) := do
  let (nextTarget, cg) ← mappings.reverse.foldlM chainStep (cg.actionTarget fallback)
  .ok (cg.resolveTarget nextTarget)

def generateAction (cg : ReverseCodegen) (range : SyscallRange) :
    Result (Target × ReverseCodegen) :=
  match range.action with
  | .unconditional action => .ok (cg.actionTarget action)
  | .conditional mappings fallback => do
    let (loc, cg) ← cg.emitConditionalChain mappings fallback
    .ok (.location loc, cg)

/-- A partial subtree, for the numbers from `nr` up to the next entry's. -/
structure BufEntry where
  level : ℕ
  action : Target
  nr : UInt32
  deriving Repr

/-- `second` with `top`, the subtree of the numbers below it, joined under one comparison. -/
def joinEntries (b : Build) (cg : ReverseCodegen) (top second : BufEntry) (level : ℕ) :
    Result (BufEntry × ReverseCodegen) := do
  let (loc, cg) ← addJumpGe b cg second.nr second.action top.action
  .ok (⟨level, .location loc, top.nr⟩, cg)

/-- The stack below `top` joined with it as long as the two top levels are equal. -/
def mergeEqualLevels (b : Build) (cg : ReverseCodegen) (top : BufEntry) :
    List BufEntry → Result (List BufEntry × ReverseCodegen)
  | [] => .ok ([top], cg)
  | second :: rest =>
    if second.level = top.level then do
      let (entry, cg) ← joinEntries b cg top second (second.level + 1)
      mergeEqualLevels b cg entry rest
    else .ok (top :: second :: rest, cg)

/-- The whole stack joined into one entry. -/
def mergeAll (b : Build) (cg : ReverseCodegen) (top : BufEntry) :
    List BufEntry → Result (BufEntry × ReverseCodegen)
  | [] => .ok (top, cg)
  | second :: rest => do
    let (entry, cg) ← joinEntries b cg top second second.level
    mergeAll b cg entry rest

/-- `debug_assert!(range.last + 1 == top.nr)`. -/
def assertAdjacent (b : Build) (range : SyscallRange) (top : BufEntry) : Result Unit :=
  if b.debugAssertions then do
    let next ← addU32 b range.last 1
    if next = top.nr then .ok ()
    else panicWith "assertion failed: range.last + 1 == top.nr"
  else .ok ()

/-- One range of the loop; the stack's top is the head of the list. -/
def ruleStep (b : Build) (state : List BufEntry × ReverseCodegen) (range : SyscallRange) :
    Result (List BufEntry × ReverseCodegen) := do
  let (buf, cg) := state
  let (action, cg) ← cg.generateAction range
  match buf with
  | [] => .ok ([⟨0, action, range.first⟩], cg)
  | top :: rest =>
    if top.action = action then do
      assertAdjacent b range top
      .ok ({ top with nr := range.first } :: rest, cg)
    else do
      let (buf, cg) ← mergeEqualLevels b cg top rest
      .ok (⟨0, action, range.first⟩ :: buf, cg)

def generateRules (b : Build) (cg : ReverseCodegen) (ranges : List SyscallRange) :
    Result (Target × ReverseCodegen) :=
  if ranges.isEmpty then errWith (.codegen "no syscall ranges to generate" none)
  else do
    let (buf, cg) ← ranges.reverse.foldlM (ruleStep b) ([], cg)
    match buf with
    | [] => errWith (.codegen "range tree does not cover syscall 0" none)
    | top :: rest =>
      if top.nr ≠ 0 then errWith (.codegen "range tree does not cover syscall 0" none)
      else do
        let (root, cg) ← mergeAll b cg top rest
        .ok (root.action, cg)

def emitArchPrelude (cg : ReverseCodegen) : ReverseCodegen :=
  let (_, cg) := cg.emitStmt BPF_LD_W_ABS OFFSET_NR
  let (_, cg) := cg.emitStmt BPF_RET_K SECCOMP_RET_KILL_PROCESS
  let (_, cg) := cg.addInstruction ⟨BPF_JMP_JEQ_K, 1, 0, AUDIT_ARCH_X86_64⟩
  (cg.emitStmt BPF_LD_W_ABS OFFSET_ARCH).2

/-- The program, and what is left of the generator: its buffer is taken, its tables stay. -/
def generate (b : Build) (cg : ReverseCodegen) (policy : Policy) :
    Result (List SockFilter × ReverseCodegen) := do
  let ranges ← normalizeRanges b policy
  let (treeEntry, cg) ← generateRules b cg ranges
  let (_, cg) := cg.resolveTarget treeEntry
  let cg := cg.emitArchPrelude
  if 65535 < cg.buffer.length then
    errWith (.codegen
      s!"BPF program too large: {cg.buffer.length} instructions (max 65535)" none)
  else .ok (cg.buffer, { cg with buffer := [] })

end ReverseCodegen

/-- `Policy::codegen`. -/
def Policy.codegen (b : Build) (policy : Policy) : Result (List SockFilter) := do
  let (prog, _) ← ReverseCodegen.generate b .new policy
  .ok prog

end Pnut.Kafel
