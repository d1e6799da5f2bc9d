import Pnut.Child.Digits

/-!
# Paths in buffers

`mkdirat_all`, `ensure_parent_dirs` and `cleanup_staging`, to the byte: a path is put together in a
buffer on the stack, and goes to the kernel from there.
-/

namespace Pnut.Child.Directories

open Program (Prog)
open Mount (EEXIST ENAMETOOLONG MAX_PATH_BYTES)

def SLASH : UInt8 := 47

/-- A system call, or the panic of an index out of bounds, from which the child does not come
back. -/
inductive Op where
  | mkdirat (dir : CInt) (path : List UInt8) (mode : UInt32)
  | unlinkat (dir : CInt) (path : List UInt8) (flags : UInt32)
  | panic
  deriving DecidableEq, Repr

abbrev Op.Out : Op → Type
  | .mkdirat _ _ _ => Except Errno Unit
  | .unlinkat _ _ _ => Except Errno Unit
  | .panic => Empty

def Op.Final (op : Op) : Prop := op = .panic

abbrev Step := ExceptT Errno (Prog Op Op.Out)

def checked {α : Type} : Option α → Step α
  | some a => pure a
  | none => ExceptT.lift (.call .panic Empty.elim)

/-- What the kernel reads of a C string: up to the first NUL. -/
def readPath (cStr : List UInt8) : List UInt8 := cStr.takeWhile (· != 0)

theorem readPath_cStr {path : List UInt8} (h : 0 ∉ path) : readPath (path ++ [0]) = path := by
  unfold readPath
  rw [List.takeWhile_append_of_pos fun byte hbyte => ?_]
  · simp
  · rw [bne_iff_ne]
    rintro rfl
    exact h hbyte

/-! ## `mkdirat_all` -/

/-- `mkdirat`, where the directory may be there already. -/
def mkdirat (dir : CInt) (cPath : List UInt8) : Step Unit := do
  let out ← ExceptT.lift (Prog.perform (Op.mkdirat dir (readPath cPath) 0o755) : Prog Op Op.Out _)
  match out with
  | .ok () => pure ()
  | .error err => if err ≠ EEXIST then throw err else pure ()

/-- The buffer with the path so far, its length, and where the next component starts. -/
structure Cumulative where
  bytes : List UInt8
  len : ℕ
  componentStart : ℕ

/-- A slash behind the path so far, if there is one. -/
def pushSlash (cum : Cumulative) : Step Cumulative :=
  if cum.len ≠ 0 then
    if cum.bytes.length ≤ cum.len + 1 then throw ENAMETOOLONG
    else do
      let bytes ← checked (store cum.bytes cum.len SLASH)
      pure { cum with bytes := bytes, len := cum.len + 1 }
  else pure cum

def pushComponent (dir : CInt) (component : List UInt8) (cum : Cumulative) : Step Cumulative := do
  let cum ← pushSlash cum
  if cum.bytes.length < cum.len + component.length + 1 then throw ENAMETOOLONG
  else do
    let bytes ← checked (copyFromSlice cum.bytes cum.len component)
    let len := cum.len + component.length
    let bytes ← checked (store bytes len 0)
    let cPath ← checked (subslice bytes 0 (len + 1))
    mkdirat dir cPath
    pure { cum with bytes := bytes, len := len }

/-- `idx == bytes.len() || bytes[idx] == b'/'`. -/
def atBoundary (path : List UInt8) (idx : ℕ) : Step Bool :=
  if idx = path.length then pure true
  else do
    let byte ← checked path[idx]?
    pure (byte == SLASH)

/-- One turn of the loop. -/
def mkdiratStep (dir : CInt) (path : List UInt8) (cum : Cumulative) (idx : ℕ) :
    Step Cumulative := do
  if ← atBoundary path idx then
    if cum.componentStart < idx then
      let component ← checked (subslice path cum.componentStart idx)
      let cum ← pushComponent dir component cum
      pure { cum with componentStart := idx + 1 }
    else pure { cum with componentStart := idx + 1 }
  else pure cum

def mkdiratAll (dir : CInt) (path : List UInt8) : Step Unit :=
  if path.isEmpty then pure ()
  else do
    let _ ← (List.range (path.length + 1)).foldlM (mkdiratStep dir path)
      ⟨List.replicate 4096 0, 0, 0⟩

/-! ## `ensure_parent_dirs` -/

/-- `iter().rposition(..)`. -/
def rposition (p : UInt8 → Bool) : List UInt8 → Option ℕ
  | [] => none
  | byte :: bytes =>
    match rposition p bytes with
    | some idx => some (idx + 1)
    | none => if p byte then some 0 else none

/-- The parent is a `CStr` again, so that its bytes are those before the NUL that is put behind
them. -/
def ensureParentDirs (root : CInt) (relPath : List UInt8) : Step Unit :=
  match rposition (· == SLASH) relPath with
  | none => pure ()
  | some parentEnd =>
    if parentEnd = 0 then pure ()
    else if MAX_PATH_BYTES < parentEnd + 1 then throw ENAMETOOLONG
    else do
      let parent ← checked (subslice relPath 0 parentEnd)
      let buf ← checked (copyFromSlice (List.replicate MAX_PATH_BYTES 0) 0 parent)
      let buf ← checked (store buf parentEnd 0)
      let parent ← checked (subslice buf 0 (parentEnd + 1))
      mkdiratAll root parent.dropLast

/-! ## `cleanup_staging` -/

def unlinkat (dir : CInt) (cPath : List UInt8) (flags : UInt32) : Step Unit :=
  Prog.perform (Op.unlinkat dir (readPath cPath) flags)

/-- A name that is rendered, or the errno of the rendering. -/
def rendered {α : Type} (x : Digits.BufStep α) : Step α := do
  match ← checked x.run with
  | .ok a => pure a
  | .error err => throw err

/-- One turn of the loop, in the buffer of the turn before. -/
def unlinkStaged (stagingFd : CInt) (nameBuf : List UInt8) (idx : UInt64) :
    Step (List UInt8) := do
  let (name, nameBuf) ← rendered (Digits.stagingNameCstr idx nameBuf)
  unlinkat stagingFd name 0
  pure nameBuf

def cleanupStaging (stagingFd : CInt) (contentCount : UInt64) : Step Unit := do
  let _ ← ((List.range contentCount.toNat).map UInt64.ofNat).foldlM (unlinkStaged stagingFd)
    (List.replicate 64 0)

end Pnut.Child.Directories
