import Pnut.Child.Spec
import Pnut.Lib.Owned

/-!
# The Landlock stage

`landlock::apply`, as a program over its system calls. The ruleset and the paths of its rules are
descriptors, each closed at the end of the scope that the source drops it in.
-/

namespace Pnut.Child.Landlock

open Program (Prog)
open Program.Owned (holding lift)

def ENOSYS : Errno := 38

inductive Op where
  | abiVersion
  | createRuleset (attr : LandlockRulesetAttr)
  | openPath (path : String)
  | addPathRule (rulesetFd : CInt) (allowedAccess : UInt64) (parentFd : CInt)
  | addNetRule (rulesetFd : CInt) (allowedAccess port : UInt64)
  | restrictSelf (rulesetFd : CInt)

abbrev Op.Out : Op → Type
  | .abiVersion => Except Errno Int64
  | .createRuleset _ => Except Errno CInt
  | .openPath _ => Except Errno CInt
  | .addPathRule _ _ _ => Except Errno Unit
  | .addNetRule _ _ _ => Except Errno Unit
  | .restrictSelf _ => Except Errno Unit

/-- A step of the stage that may fail with an errno. -/
abbrev Step := Program.Owned.Step Op.Out Errno

def abiVersion : ExceptT Errno (Prog Op Op.Out) Int64 := Prog.perform Op.abiVersion

def createRuleset (attr : LandlockRulesetAttr) : ExceptT Errno (Prog Op Op.Out) CInt :=
  Prog.perform (Op.createRuleset attr)

def addPathRule (rulesetFd : CInt) (rule : LandlockPathRule) : Step Unit :=
  holding (lift (Prog.perform (Op.openPath rule.path))) fun pathFd =>
    lift (Prog.perform (Op.addPathRule rulesetFd rule.allowedAccess pathFd))

def addNetRule (rulesetFd : CInt) (rule : LandlockNetRule) : Step Unit :=
  lift (Prog.perform (Op.addNetRule rulesetFd rule.allowedAccess rule.port.toUInt64))

/-- The loops over the rules of the plan. -/
def applyRules (rulesetFd : CInt) (spec : LandlockSpec) : Step Unit := do
  spec.pathRules.forM (addPathRule rulesetFd)
  spec.netRules.forM (addNetRule rulesetFd)

def restrictSelf (rulesetFd : CInt) : Step Unit :=
  lift (Prog.perform (Op.restrictSelf rulesetFd))

/-- A kernel that is too old is refused, unless any ABI will do. -/
def requireAbi (minAbi : UInt32) : ExceptT Errno (Prog Op Op.Out) Unit :=
  if minAbi ≠ 0 then do
    let abi ← abiVersion
    if abi < Int64.ofNat minAbi.toNat then throw ENOSYS else pure ()
  else pure ()

def apply (spec : LandlockSpec) : Step Unit := do
  lift (requireAbi spec.minAbi)
  holding (lift (createRuleset spec.ruleset)) fun ruleset => do
    applyRules ruleset spec
    restrictSelf ruleset

end Pnut.Child.Landlock
