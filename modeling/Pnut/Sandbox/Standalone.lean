import Pnut.Child.Runtime
import Pnut.Lib.Discipline
import Pnut.Sandbox.Prepare

/-!
# A process of the sandbox

`Sandbox::run`, as one process sees it: what `pnut` does, and behind it what `pnut_child::run` does
in the same process. In once mode that is the parent up to `clone3`, and then either the parent or
the child. In execve mode there is one process, which leaves its namespaces and never returns unless
it fails.
-/

namespace Pnut.Process

open Program (Prog Loop)
open Child (CInt Errno ChildSpec Prim Target)
open Parent (Error Handle Point Texts)
open Config (Sandbox)

inductive Op where
  | parent (op : Parent.Op)
  | unshare (flags : CInt)
  | getpid
  | child (prim : Prim)

abbrev Op.Out : Op → Type
  | .parent op => Parent.Op.Out op
  | .unshare _ => Except Errno Unit
  | .getpid => CInt
  | .child prim => prim.Out

/-- A step of the process that may fail. -/
abbrev Step := ExceptT Error (Prog Op Op.Out)

section Run

variable {C : Type} (texts : Texts) (target : Target)

/-- `pnut_child::run`. -/
def enterChild (spec : ChildSpec) : Prog Op Op.Out Empty :=
  (Child.run target spec).interpret fun prim => Prog.perform (Op.child prim)

/-- A call of the parent. The child's side of `clone3` goes on in the same process. -/
def ofParent : (op : Parent.Op) → Prog Op Op.Out (Parent.Op.Out op)
  | .enterChild spec => enterChild target spec
  | op => Prog.perform (Op.parent op)

/-- What the parent reads of a sandbox. -/
def parentOf (sandbox : Sandbox C) : Parent.Sandbox where
  args := sandbox.command.args
  forwardSignals := sandbox.process.forwardSignals
  namespaces := sandbox.namespaces.created
  uidMap := sandbox.uidMap
  gidMap := sandbox.gidMap

/-- `run_once_mode`. -/
def runOnceMode (sandbox : Sandbox C) : Loop Op Op.Out Point (Except Error CInt) :=
  fun point => (Parent.runOnceMode texts (parentOf sandbox) point).interpret (ofParent target)

/-- `run_execve_mode`. It returns an error, or not at all. -/
def runExecveMode (sandbox : Sandbox C) : Step Empty := do
  -- a new pid namespace would be one for the children only
  let flags := Parent.cloneFlags sandbox.namespaces.created &&& ~~~Parent.CLONE_NEWPID
  let unshared ← ExceptT.lift (Prog.perform (Op.unshare flags.toUInt32.toInt32))
  match unshared with
  | .error e => throw (.setup .clone "unshare failed" e)
  | .ok () => do
    let myPid ← ExceptT.lift (Prog.perform Op.getpid)
    ExceptT.mk ((Parent.writeIdMaps myPid sandbox.uidMap sandbox.gidMap).run.interpret
      (ofParent target))
    match ← ExceptT.lift (Prog.perform (Op.parent .prepare)) with
    | .error message => throw (.build message)
    | .ok spec => ExceptT.lift (enterChild target spec)

/-- `Sandbox::run`. -/
def run (sandbox : Sandbox C) : Loop Op Op.Out Point (Except Error CInt) :=
  match sandbox.mode with
  | .once => runOnceMode texts target sandbox
  | .execve => fun _ => do
    match ← (runExecveMode target sandbox).run with
    | .error e => pure (.inr (.error e))
    | .ok never => nomatch never

end Run

end Pnut.Process
