import Pnut.Child.Descriptors

/-!
# The descriptors of a sandbox

The mappings of a configuration, the check that a sandbox is built with, and the actions that the
child is handed. An error is the text of an `InvalidConfig`.
-/

namespace Pnut.Sandbox

open Child (CInt FdAction FdSpec Fallible)

structure FdMapping where
  src : CInt
  dst : CInt
  deriving DecidableEq, Repr

structure FileDescriptors where
  mappings : List FdMapping
  closeFds : Bool

/-- The loop of `Sandbox::try_from` over the mappings, with the destinations behind it. -/
def checkDestinations : List CInt → List FdMapping → Except String Unit
  | _, [] => .ok ()
  | dstSet, m :: rest =>
    if m.dst ∈ dstSet then .error s!"duplicate fd mapping destination: {m.dst}"
    else checkDestinations (m.dst :: dstSet) rest

/-- `BTreeSet::insert`. -/
def insertFd (fd : CInt) : List CInt → List CInt
  | [] => [fd]
  | fd' :: rest =>
    if fd < fd' then fd :: fd' :: rest
    else if fd = fd' then fd' :: rest
    else fd' :: insertFd fd rest

def FdMapping.toAction (m : FdMapping) : FdAction := .dup2 m.src m.dst

/-- `FileDescriptors::prepare`. -/
def FileDescriptors.prepare (d : FileDescriptors) : FdSpec where
  actions := d.mappings.map FdMapping.toAction
  keep := d.mappings.foldl (fun keepSet m => insertFd m.dst keepSet)
    ([0, 1, 2].foldl (fun keepSet fd => insertFd fd keepSet) [])
  closeFds := d.closeFds

/-- The fd stage of the child: the actions, then the closing of the others. -/
def fdStage (fds : FdSpec) (extraKeep : List CInt) : Fallible Unit := do
  Child.Fd.applyActions fds.actions
  if fds.closeFds then Child.Fd.closeOtherFds fds.keep extraKeep else pure ()

end Pnut.Sandbox
