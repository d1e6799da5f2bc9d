import Pnut.Child.Descriptors
import Pnut.Kafel.ExprBuf

/-!
# The child as the kernel sees it

Its descriptors, the seccomp filters it runs under, and what it has written to one file: the status
pipe, whose other end the parent keeps open. A write to the pipe that no filter stops succeeds, a
record being shorter than what a pipe takes at once. The numbers are those of x86-64.
-/

namespace Pnut.Child

open Bpf (SockFilter SeccompData)
open Kafel.Libc (SECCOMP_RET_ALLOW SECCOMP_RET_LOG)

def SYS_WRITE : UInt32 := 1

/-- The bits of a verdict that name its action. -/
def SECCOMP_RET_ACTION_FULL : UInt32 := 0xFFFF0000

/-- The bytes of a buffer: `size_of::<ChildFailure>()`, those of the text, or `RECORD_LEN`. -/
def Payload.size : Payload → UInt64
  | .failure _ => 16
  | .message text => UInt64.ofNat text.utf8ByteSize
  | .completion _ _ => 42

/-- The call goes on. -/
def GoesOn (verdict : UInt32) : Prop :=
  verdict &&& SECCOMP_RET_ACTION_FULL = SECCOMP_RET_ALLOW ∨
    verdict &&& SECCOMP_RET_ACTION_FULL = SECCOMP_RET_LOG

/-- A `write` call with this descriptor and size, wherever it comes from and wherever the buffer is.
The upper half of a register that holds an `int` is not told. -/
structure IsWrite (d : SeccompData) (fd : CInt) (size : UInt64) : Prop where
  nr : d.nr = SYS_WRITE
  arch : d.arch = Kafel.AUDIT_ARCH_X86_64
  arg0 : (d.args 0).toUInt32 = fd.toUInt32
  arg2 : d.args 2 = size

/-- The program lets these calls go on. -/
def LetsWrite (program : List SockFilter) (fd : CInt) (size : UInt64) : Prop :=
  ∀ d : SeccompData, IsWrite d fd size →
    ∃ verdict, Bpf.exec program d.load = some verdict ∧ GoesOn verdict

structure Process (File : Type) where
  table : Table File
  filters : List (List SockFilter)
  sent : List Payload

/-- A call that neither changes what is open, nor writes, nor installs a filter. -/
def Prim.Aside : Prim → Prop
  | .dup2 _ _ => False
  | .close _ => False
  | .closeRange _ _ => False
  | .writeAll _ _ => False
  | .installSeccomp _ => False
  | _ => True

/-- The answers of the kernel to the child, `status` being the pipe. -/
inductive Serves {File : Type} (status : File) :
    Process File → (op : Prim) → op.Out → Process File → Prop
  | fds {w : Process File} {op : Prim} {out : op.Out} {table : Table File} :
      Kernel w.table op out table → Serves status w op out { w with table := table }
  | noCloseRange {w : Process File} {first last : UInt32} (err : Errno) :
      Serves status w (.closeRange first last) (.error err) w
  | written {w : Process File} {fd : CInt} {buf : Payload} {o : OpenFd File} :
      w.table.get fd = some o → o.file = status →
      Serves status w (.writeAll fd buf) (.ok ()) { w with sent := w.sent ++ [buf] }
  | stopped {w : Process File} {fd : CInt} {buf : Payload} {program : List SockFilter}
      (err : Errno) : program ∈ w.filters → ¬ LetsWrite program fd buf.size →
      Serves status w (.writeAll fd buf) (.error err) w
  | elsewhere {w : Process File} {fd : CInt} {buf : Payload} (out : Except Errno Unit) :
      (∀ o, w.table.get fd = some o → o.file ≠ status) →
      Serves status w (.writeAll fd buf) out w
  | installed {w : Process File} {spec : SeccompSpec} :
      Serves status w (.installSeccomp spec) (.ok ())
        { w with filters := spec.program :: w.filters }
  | notInstalled {w : Process File} {spec : SeccompSpec} (err : Errno) :
      Serves status w (.installSeccomp spec) (.error err) w
  | aside {w : Process File} {op : Prim} {table : Table File} (out : op.Out) : op.Aside →
      (∀ fd, (w.table.get fd).isSome → table.get fd = w.table.get fd) →
      Serves status w op out { w with table := table }

end Pnut.Child
