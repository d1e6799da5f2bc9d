import Pnut.Child.Runtime

/-!
# Descriptor tables

The kernel's side of the calls that the fd stage makes. An open descriptor refers to a file, and is
close-on-exec or not.
-/

namespace Pnut.Child

/-- An open descriptor: the file it refers to, and its `FD_CLOEXEC`. -/
structure OpenFd (File : Type) where
  file : File
  cloexec : Bool

/-- The descriptors of a process. No open one is negative. -/
structure Table (File : Type) where
  get : CInt → Option (OpenFd File)
  get_neg : ∀ fd < 0, get fd = none

namespace Table

variable {File : Type} (table : Table File)

/-- The descriptors that stay open. -/
def filter (keep : CInt → OpenFd File → Bool) : Table File where
  get fd := (table.get fd).filter (keep fd)
  get_neg fd hfd := by rw [table.get_neg fd hfd, Option.filter_none]

theorem filter_get (keep : CInt → OpenFd File → Bool) (fd : CInt) :
    (table.filter keep).get fd = (table.get fd).filter (keep fd) := rfl

theorem filter_not_get (closed : CInt → Prop) [DecidablePred closed] (fd : CInt) :
    (table.filter fun fd _ => !decide (closed fd)).get fd =
      if closed fd then none else table.get fd := by
  rw [filter_get]
  by_cases h : closed fd
  · rw [if_pos h]
    cases table.get fd <;> simp [h]
  · rw [if_neg h]
    cases table.get fd <;> simp [h]

@[ext] theorem ext {t t' : Table File} (h : ∀ fd, t.get fd = t'.get fd) : t = t' := by
  rcases t with ⟨get, hget⟩
  rcases t' with ⟨get', hget'⟩
  obtain rfl : get = get' := funext h
  rfl

/-- The table with the given descriptors, as far as they are not negative. -/
def ofList (fds : List (CInt × OpenFd File)) : Table File where
  get fd := if fd < 0 then none else fds.lookup fd
  get_neg _ hfd := if_pos hfd

/-- What a successful `dup2` leaves: `dst` refers to the file, and stays open at `execve`. -/
def install (dst : CInt) (file : File) (h : 0 ≤ dst) : Table File where
  get fd := if fd = dst then some ⟨file, false⟩ else table.get fd
  get_neg fd hfd := by
    rw [if_neg, table.get_neg fd hfd]
    rintro rfl
    rw [Int32.lt_iff_toInt_lt] at hfd
    rw [Int32.le_iff_toInt_le] at h
    omega

theorem install_get (dst : CInt) (file : File) (h : 0 ≤ dst) (fd : CInt) :
    (table.install dst file h).get fd =
      if fd = dst then some ⟨file, false⟩ else table.get fd := rfl

/-- What a successful `close` leaves. -/
def close (fd : CInt) : Table File := table.filter fun n _ => n ≠ fd

/-- What `close_range` leaves. -/
def closeRange (first last : UInt32) : Table File :=
  table.filter fun fd _ => !(first ≤ fd.toUInt32 && fd.toUInt32 ≤ last)

/-- What `execve` leaves. -/
def exec : Table File := table.filter fun _ o => !o.cloexec

end Table

/-- The answers of the kernel to the calls of the fd stage. -/
inductive Kernel {File : Type} : Table File → (op : Prim) → op.Out → Table File → Prop
  | dup2 {table : Table File} {src dst : CInt} {o : OpenFd File} (hdst : 0 ≤ dst) :
      table.get src = some o → src ≠ dst →
      Kernel table (.dup2 src dst) (.ok ()) (table.install dst o.file hdst)
  | dup2Failed {table : Table File} {src dst : CInt} (err : Errno) :
      Kernel table (.dup2 src dst) (.error err) table
  | close {table : Table File} {fd : CInt} :
      (table.get fd).isSome → Kernel table (.close fd) (.ok ()) (table.close fd)
  | closeFailed {table : Table File} {fd : CInt} (err : Errno) :
      Kernel table (.close fd) (.error err) (table.close fd)
  | closeRange {table : Table File} {first last : UInt32} :
      first ≤ last → Kernel table (.closeRange first last) (.ok ()) (table.closeRange first last)
  | closeRangeInvalid {table : Table File} {first last : UInt32} :
      last < first → Kernel table (.closeRange first last) (.error EINVAL) table

end Pnut.Child
