import Pnut.Child.Runtime
import Pnut.Lib.Path

/-!
# The mount stage

`mount::setup`, as a program over the system calls of the mount interface: the new root is a tmpfs
beside the old one, the tree is built below its descriptor, and then it becomes the root. A
descriptor is closed when the source drops it; the closing is not a call here, and neither is the
report on a failed `fsconfig`.
-/

namespace Pnut.Child.Mount

open Program (Prog)
open Peg (byteLen)

/-- A path, as the kernel reads it. -/
abbrev PathText := List Char

/-! ## System calls -/

/-- The directory that a relative path starts from: `AT_FDCWD` or a descriptor. -/
inductive Dir where
  | cwd
  | fd (n : CInt)
  deriving DecidableEq, Repr

/-- What `mount_setattr` is to change. -/
structure MountAttr where
  attrSet : UInt64 := 0
  propagation : UInt64 := 0
  deriving DecidableEq, Repr

def MS_PRIVATE : UInt64 := (1 : UInt64) <<< 18
def MOUNT_ATTR_RDONLY : UInt64 := 0x1
def MOUNT_ATTR_NOSUID : UInt64 := 0x2
def MOUNT_ATTR_NODEV : UInt64 := 0x4
def MOUNT_ATTR_NOEXEC : UInt64 := 0x8

def OPEN_TREE_CLONE : UInt32 := 0x1
def OPEN_TREE_CLOEXEC : UInt32 := 0x80000
def AT_REMOVEDIR : UInt32 := 0x200
def AT_EMPTY_PATH : UInt32 := 0x1000
def AT_RECURSIVE : UInt32 := 0x8000
def MNT_DETACH : UInt32 := 2

def EEXIST : Errno := 17
def ENAMETOOLONG : Errno := 36

inductive Op where
  | mountSetattr (dir : Dir) (path : PathText) (flags : UInt32) (attr : MountAttr)
  | mkdir (path : PathText)
  | fsopen (fsName : String)
  | fsconfigSetString (fs : CInt) (key value : String)
  | fsconfigSetFlag (fs : CInt) (key : String)
  | fsconfigCreate (fs : CInt)
  | fsmount (fs : CInt) (attrFlags : UInt64)
  | moveMount (mnt : CInt) (dir : Dir) (path : PathText)
  | openTree (dir : Dir) (path : PathText) (flags : UInt32)
  | openatDir (dir : Dir) (path : PathText)
  | mkdirat (dir : Dir) (path : PathText)
  | createFileAt (dir : Dir) (path : PathText)
  | writeFileAt (dir : Dir) (path : PathText) (content : List UInt8)
  | symlinkat (target : PathText) (dir : Dir) (path : PathText)
  | fchdir (fd : CInt)
  | pivotRoot (newRoot putOld : PathText)
  | umount2 (target : PathText) (flags : UInt32)
  | unlinkat (dir : Dir) (path : PathText) (flags : UInt32)
  | chdir (path : PathText)
  deriving DecidableEq

/-- What a call hands back: a new descriptor, or that it was done. -/
abbrev Op.Out : Op → Type
  | .fsopen _ => Except Errno CInt
  | .fsmount _ _ => Except Errno CInt
  | .openTree _ _ _ => Except Errno CInt
  | .openatDir _ _ => Except Errno CInt
  | _ => Except Errno Unit

/-- The directory and the path that a call resolves. -/
def Op.place : Op → Option (Dir × PathText)
  | .mountSetattr dir path _ _ => some (dir, path)
  | .mkdir path => some (.cwd, path)
  | .moveMount _ dir path => some (dir, path)
  | .openTree dir path _ => some (dir, path)
  | .openatDir dir path => some (dir, path)
  | .mkdirat dir path => some (dir, path)
  | .createFileAt dir path => some (dir, path)
  | .writeFileAt dir path _ => some (dir, path)
  | .symlinkat _ dir path => some (dir, path)
  | .umount2 target _ => some (.cwd, target)
  | .unlinkat dir path _ => some (dir, path)
  | .chdir path => some (.cwd, path)
  | _ => none

/-- Every call comes back. -/
def Op.Final (_ : Op) : Prop := False

/-- A step of the mount stage that may fail with an errno. -/
abbrev Step := ExceptT Errno (Prog Op Op.Out)

def moveMountToFd (mnt dir : CInt) (relPath : PathText) : Step Unit :=
  Prog.perform (Op.moveMount mnt (.fd dir) relPath)

def openTree (dir : Dir) (path : PathText) (flags : UInt32) : Step CInt :=
  Prog.perform (Op.openTree dir path flags)

def mountSetattr (dir : Dir) (path : PathText) (flags : UInt32) (attr : MountAttr) : Step Unit :=
  Prog.perform (Op.mountSetattr dir path flags attr)

def createFileAt (dir : CInt) (relPath : PathText) : Step Unit :=
  Prog.perform (Op.createFileAt (.fd dir) relPath)

/-! ## Directories -/

/-- The bytes of the buffers that paths are put together in. -/
def MAX_PATH_BYTES : ℕ := 4096

/-- `mkdirat`, where the directory may be there already. -/
def mkdirat (dir : CInt) (path : PathText) : Step Unit := do
  let out ← ExceptT.lift (Prog.perform (Op.mkdirat (.fd dir) path))
  match out with
  | .ok () => pure ()
  | .error err => if err ≠ EEXIST then throw err else pure ()

/-- A component that has been read, in `mkdirat_all`: the path so far, with the component. -/
def mkdirComponent (dir : CInt) (cumulative component : PathText) : Step PathText :=
  if component = [] then pure cumulative
  else if cumulative ≠ [] ∧ MAX_PATH_BYTES ≤ byteLen cumulative + 1 then throw ENAMETOOLONG
  else
    let cumulative := if cumulative ≠ [] then cumulative ++ ['/'] else cumulative
    if MAX_PATH_BYTES < byteLen cumulative + byteLen component + 1 then throw ENAMETOOLONG
    else do
      mkdirat dir (cumulative ++ component)
      pure (cumulative ++ component)

/-- The loop of `mkdirat_all`, with the component that is being read. -/
def mkdiratFrom (dir : CInt) : PathText → PathText → PathText → Step Unit
  | cumulative, component, [] => do
    let _ ← mkdirComponent dir cumulative component
  | cumulative, component, c :: rest =>
    if c = '/' then do
      let cumulative ← mkdirComponent dir cumulative component
      mkdiratFrom dir cumulative [] rest
    else mkdiratFrom dir cumulative (component ++ [c]) rest

def mkdiratAll (dir : CInt) (path : PathText) : Step Unit := mkdiratFrom dir [] [] path

/-- `bytes[..rposition('/')]`. -/
def parentOf : PathText → Option PathText
  | [] => none
  | c :: s =>
    match parentOf s with
    | some parent => some (c :: parent)
    | none => if c = '/' then some [] else none

def ensureParentDirs (root : CInt) (relPath : PathText) : Step Unit :=
  match parentOf relPath with
  | none => pure ()
  | some parent =>
    if byteLen parent = 0 then pure ()
    else if MAX_PATH_BYTES < byteLen parent + 1 then throw ENAMETOOLONG
    else mkdiratAll root parent

def ensureMountPoint (root : CInt) (dstRel : PathText) (srcIsDir : Bool) : Step Unit :=
  if srcIsDir then mkdiratAll root dstRel
  else do
    ensureParentDirs root dstRel
    createFileAt root dstRel

/-! ## Mounts -/

def EMPTY_PATH : PathText := []
def NEW_ROOT_ABS : PathText := "/tmp/pnut-newroot".toList
def ROOT_SLASH : PathText := ['/']
def DOT : PathText := ['.']
def PUT_OLD : PathText := ".old_root".toList
def PUT_OLD_ABS : PathText := "/.old_root".toList
def CONTENT_STAGING : PathText := ".pnut-content".toList
def CONTENT_STAGING_ABS : PathText := "/.pnut-content".toList

def fsopen (fsName : String) : Step CInt := Prog.perform (Op.fsopen fsName)

def fsconfigSetString (fs : CInt) (key value : String) : Step Unit :=
  Prog.perform (Op.fsconfigSetString fs key value)

def fsconfigCreate (fs : CInt) : Step Unit := Prog.perform (Op.fsconfigCreate fs)

def fsmount (fs : CInt) (attrFlags : UInt64) : Step CInt :=
  Prog.perform (Op.fsmount fs attrFlags)

/-- Read-only, on a mount that is still detached. -/
def setReadOnly (mnt : CInt) (recursive : Bool) : Step Unit :=
  mountSetattr (.fd mnt) EMPTY_PATH (AT_EMPTY_PATH ||| if recursive then AT_RECURSIVE else 0)
    { attrSet := MOUNT_ATTR_RDONLY }

def whenever (c : Bool) (x : Step Unit) : Step Unit := if c then x else pure ()

def rootAbsolutePath (relPath : PathText) : Step PathText :=
  if MAX_PATH_BYTES < byteLen NEW_ROOT_ABS + 1 + byteLen relPath + 1 then throw ENAMETOOLONG
  else pure (NEW_ROOT_ABS ++ '/' :: relPath)

/-- The detached copy of a bind mount's source. -/
def bindTree (root : CInt) (dstRel : PathText) (srcIsDir readOnly : Bool) :
    BindMountSource → Step CInt
  | .path path => openTree .cwd path.toList (OPEN_TREE_CLONE ||| OPEN_TREE_CLOEXEC ||| AT_RECURSIVE)
  | .prepared fd => do
    mountSetattr (.fd fd) EMPTY_PATH (AT_EMPTY_PATH ||| AT_RECURSIVE) { propagation := MS_PRIVATE }
    whenever readOnly (setReadOnly fd srcIsDir)
    moveMountToFd fd root dstRel
    let owned ←
      openTree (.fd root) dstRel (OPEN_TREE_CLONE ||| OPEN_TREE_CLOEXEC ||| AT_RECURSIVE)
    let absolute ← rootAbsolutePath dstRel
    (Prog.perform (Op.umount2 absolute MNT_DETACH) : Step Unit)
    pure owned

def processBindMount (source : BindMountSource) (dstRel : PathText) (srcIsDir readOnly : Bool)
    (root : CInt) : Step Unit := do
  ensureMountPoint root dstRel srcIsDir
  let mnt ← bindTree root dstRel srcIsDir readOnly source
  whenever readOnly (setReadOnly mnt srcIsDir)
  moveMountToFd mnt root dstRel

def decimal (value : UInt64) : String := toString value.toNat

def octal (value : UInt32) : String := String.ofList (Nat.toDigits 8 value.toNat)

def setOption (fs : CInt) (key : String) : Option String → Step Unit
  | none => pure ()
  | some value => fsconfigSetString fs key value

def processTmpfsMount (dstRel : PathText) (readOnly : Bool) (sizeBytes : Option UInt64)
    (mode : Option UInt32) (root : CInt) : Step Unit := do
  mkdiratAll root dstRel
  let fs ← fsopen "tmpfs"
  setOption fs "size" (sizeBytes.map decimal)
  setOption fs "mode" (mode.map octal)
  fsconfigCreate fs
  let mnt ← fsmount fs 0
  whenever readOnly (setReadOnly mnt false)
  moveMountToFd mnt root dstRel

def subsetValue : ProcSubset → String
  | .pid => "pid"

def hidepidValue : HidePid → String
  | .visible => "0"
  | .hidden => "1"
  | .invisible => "invisible"

def processProcMount (dstRel : PathText) (subset : Option ProcSubset) (hidepid : Option HidePid)
    (root : CInt) : Step Unit := do
  mkdiratAll root dstRel
  let fs ← fsopen "proc"
  setOption fs "subset" (subset.map subsetValue)
  setOption fs "hidepid" (hidepid.map hidepidValue)
  fsconfigCreate fs
  let mnt ← fsmount fs 0
  moveMountToFd mnt root dstRel

def processMqueueMount (dstRel : PathText) (root : CInt) : Step Unit := do
  mkdiratAll root dstRel
  let fs ← fsopen "mqueue"
  fsconfigCreate fs
  let mnt ← fsmount fs 0
  moveMountToFd mnt root dstRel

/-- The name of a file with injected bytes, in the staging directory. -/
def stagingName (index : ℕ) : PathText := "content-".toList ++ Nat.toDigits 10 index

def processFileMount (dstRel : PathText) (content : List UInt8) (readOnly : Bool)
    (root staging : CInt) (contentCount : ℕ) : Step Unit := do
  (Prog.perform (Op.writeFileAt (.fd staging) (stagingName contentCount) content) : Step Unit)
  ensureParentDirs root dstRel
  createFileAt root dstRel
  let mnt ← openTree (.fd staging) (stagingName contentCount)
    (OPEN_TREE_CLONE ||| OPEN_TREE_CLOEXEC)
  whenever readOnly (setReadOnly mnt false)
  moveMountToFd mnt root dstRel

/-- The number of injected files after an entry. -/
def processMountEntry (root staging : CInt) (contentCount : ℕ) : MountEntry → Step ℕ
  | .bind source dstRel srcIsDir readOnly => do
    processBindMount source dstRel.toList srcIsDir readOnly root
    pure contentCount
  | .tmpfs dstRel readOnly sizeBytes mode => do
    processTmpfsMount dstRel.toList readOnly sizeBytes mode root
    pure contentCount
  | .proc dstRel subset hidepid => do
    processProcMount dstRel.toList subset hidepid root
    pure contentCount
  | .mqueue dstRel => do
    processMqueueMount dstRel.toList root
    pure contentCount
  | .file dstRel content readOnly => do
    processFileMount dstRel.toList content readOnly root staging contentCount
    pure (contentCount + 1)

/-! ## `/dev` -/

def setOptions (fs : CInt) : List (String × String) → Step Unit
  | [] => pure ()
  | (key, value) :: options => do
    fsconfigSetString fs key value
    setOptions fs options

def setFlags (fs : CInt) : List String → Step Unit
  | [] => pure ()
  | key :: flags => do
    (Prog.perform (Op.fsconfigSetFlag fs key) : Step Unit)
    setFlags fs flags

def mountFs (fsType : String) (root : CInt) (relDst : PathText) (attrFlags : UInt64)
    (options : List (String × String)) (flags : List String) : Step Unit := do
  let fs ← fsopen fsType
  setOptions fs options
  setFlags fs flags
  fsconfigCreate fs
  let mnt ← fsmount fs attrFlags
  moveMountToFd mnt root relDst

/-- The host's device nodes that are bound into `/dev`. -/
def bindDevices (dev : CInt) : List String → Step Unit
  | [] => pure ()
  | name :: names => do
    createFileAt dev name.toList
    let mnt ← openTree .cwd ("/dev/" ++ name).toList (OPEN_TREE_CLONE ||| OPEN_TREE_CLOEXEC)
    moveMountToFd mnt dev name.toList
    bindDevices dev names

def symlinks (dev : CInt) : List (String × String) → Step Unit
  | [] => pure ()
  | (target, name) :: links => do
    (Prog.perform (Op.symlinkat target.toList (.fd dev) name.toList) : Step Unit)
    symlinks dev links

def devices : List String := ["null", "zero", "full", "random", "urandom", "tty"]

def devLinks : List (String × String) :=
  [("pts/ptmx", "ptmx"), ("/proc/self/fd", "fd"), ("/proc/self/fd/0", "stdin"),
    ("/proc/self/fd/1", "stdout"), ("/proc/self/fd/2", "stderr")]

def DEV : PathText := "dev".toList
def SHM : PathText := "shm".toList
def PTS : PathText := "pts".toList

def openatDir (dir : Dir) (path : PathText) : Step CInt := Prog.perform (Op.openatDir dir path)

def setupDev (root : CInt) : Step Unit := do
  mkdiratAll root DEV
  mountFs "tmpfs" root DEV (MOUNT_ATTR_NOSUID ||| MOUNT_ATTR_NOEXEC) [("mode", "0755")] []
  let dev ← openatDir (.fd root) DEV
  bindDevices dev devices
  mkdiratAll dev SHM
  mountFs "tmpfs" dev SHM (MOUNT_ATTR_NOSUID ||| MOUNT_ATTR_NODEV) [("mode", "1777")] []
  mkdiratAll dev PTS
  mountFs "devpts" dev PTS (MOUNT_ATTR_NOSUID ||| MOUNT_ATTR_NOEXEC)
    [("ptmxmode", "0666"), ("mode", "620")] ["newinstance"]
  symlinks dev devLinks

/-! ## The stage -/

/-- The place of the new root, which may be there already. -/
def mkdirNewRoot : Step Unit := do
  let out ← ExceptT.lift (Prog.perform (Op.mkdir NEW_ROOT_ABS))
  match out with
  | .ok () => pure ()
  | .error err => if err ≠ EEXIST then throw err else pure ()

def setupRoot : Step CInt := do
  mountSetattr .cwd ROOT_SLASH AT_RECURSIVE { propagation := MS_PRIVATE }
  mkdirNewRoot
  let fs ← fsopen "tmpfs"
  fsconfigCreate fs
  let mnt ← fsmount fs 0
  (Prog.perform (Op.moveMount mnt .cwd NEW_ROOT_ABS) : Step Unit)
  openatDir .cwd NEW_ROOT_ABS

def cleanupStaging (staging : CInt) : List ℕ → Step Unit
  | [] => pure ()
  | idx :: rest => do
    (Prog.perform (Op.unlinkat (.fd staging) (stagingName idx) 0) : Step Unit)
    cleanupStaging staging rest

def pivotAndCleanup (root staging : CInt) (contentCount : ℕ) : Step Unit := do
  (Prog.perform (Op.fchdir root) : Step Unit)
  (Prog.perform (Op.pivotRoot DOT DOT) : Step Unit)
  (Prog.perform (Op.umount2 DOT MNT_DETACH) : Step Unit)
  cleanupStaging staging (List.range contentCount)
  let _ ← ExceptT.lift (Prog.perform (Op.unlinkat .cwd PUT_OLD_ABS AT_REMOVEDIR))
  let _ ← ExceptT.lift (Prog.perform (Op.unlinkat .cwd CONTENT_STAGING_ABS AT_REMOVEDIR))
  (Prog.perform (Op.chdir ROOT_SLASH) : Step Unit)

/-- `map_err(|err| MountError::new(err, detail))`. -/
def withDetail {α : Type} (detail : CInt) (x : Step α) :
    ExceptT MountError (Prog Op Op.Out) α :=
  ExceptT.adapt (fun err => ⟨err, detail⟩) x

/-- The loop over the entries of the plan. -/
def processEntries (root staging : CInt) :
    ℕ → ℕ → List MountEntry → ExceptT MountError (Prog Op Op.Out) ℕ
  | _, contentCount, [] => pure contentCount
  | idx, contentCount, entry :: entries => do
    let contentCount ←
      withDetail (1000 + Int32.ofNat idx) (processMountEntry root staging contentCount entry)
    processEntries root staging (idx + 1) contentCount entries

def setup (plan : MountPlan) : ExceptT MountError (Prog Op Op.Out) Unit := do
  let root ← withDetail 0 setupRoot
  withDetail 0 (mkdiratAll root PUT_OLD)
  withDetail 0 (mkdiratAll root CONTENT_STAGING)
  let staging ← withDetail 0 (openatDir (.fd root) CONTENT_STAGING)
  withDetail 2000 (setupDev root)
  let contentCount ← processEntries root staging 0 0 plan.entries
  withDetail 3000 (pivotAndCleanup root staging contentCount)

end Pnut.Child.Mount
