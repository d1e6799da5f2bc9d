import Pnut.Child.Mount
import Pnut.Lib.Owned

/-!
# The descriptors of the mount stage

`mount::setup` once more, where each `OwnedFd` is closed at the end of the scope that the source
drops it in. What opens no descriptor is a step of the plain stage; the calls of the two stages are
the same but for the closing.
-/

namespace Pnut.Child.Mount.Owned

open Program (Prog)
open Program.Owned (holding lift mapError erase erase_pure erase_bind erase_lift erase_holding
  erase_mapError)

/-- A step of the stage that may fail with an errno. -/
abbrev Step := Program.Owned.Step Mount.Op.Out Errno

/-- A mount of a filesystem of its own: its context and the mount are dropped behind the rest. -/
def mountNew {α : Type} (fsName : String) (configure : CInt → Mount.Step Unit)
    (attrFlags : UInt64) (attach : CInt → Mount.Step α) : Step α :=
  holding (lift (fsopen fsName)) fun fs => do
    lift do
      configure fs
      fsconfigCreate fs
    holding (lift (fsmount fs attrFlags)) fun mnt => lift (attach mnt)

/-! ## Entries -/

/-- The end of a bind mount, with the detached copy of its source. -/
def attachBind (dstRel : PathText) (srcIsDir readOnly : Bool) (root mnt : CInt) :
    Mount.Step Unit := do
  whenever readOnly (setReadOnly mnt srcIsDir)
  moveMountToFd mnt root dstRel

def processBindMount (source : BindMountSource) (dstRel : PathText) (srcIsDir readOnly : Bool)
    (root : CInt) : Step Unit := do
  lift (ensureMountPoint root dstRel srcIsDir)
  match source with
  | .path path =>
    holding (lift (openTree .cwd path.toList
        (OPEN_TREE_CLONE ||| OPEN_TREE_CLOEXEC ||| AT_RECURSIVE))) fun owned =>
      lift (attachBind dstRel srcIsDir readOnly root owned)
  | .prepared fd => do
    lift do
      mountSetattr (.fd fd) EMPTY_PATH (AT_EMPTY_PATH ||| AT_RECURSIVE)
        { propagation := MS_PRIVATE }
      whenever readOnly (setReadOnly fd srcIsDir)
      moveMountToFd fd root dstRel
    holding (lift (openTree (.fd root) dstRel
        (OPEN_TREE_CLONE ||| OPEN_TREE_CLOEXEC ||| AT_RECURSIVE))) fun owned =>
      lift do
        let absolute ← rootAbsolutePath dstRel
        (Prog.perform (Mount.Op.umount2 absolute MNT_DETACH) : Mount.Step Unit)
        attachBind dstRel srcIsDir readOnly root owned

def processTmpfsMount (dstRel : PathText) (readOnly : Bool) (sizeBytes : Option UInt64)
    (mode : Option UInt32) (root : CInt) : Step Unit := do
  lift (mkdiratAll root dstRel)
  mountNew "tmpfs"
    (fun fs => do
      setOption fs "size" (sizeBytes.map decimal)
      setOption fs "mode" (mode.map octal))
    0
    (fun mnt => do
      whenever readOnly (setReadOnly mnt false)
      moveMountToFd mnt root dstRel)

def processProcMount (dstRel : PathText) (subset : Option ProcSubset) (hidepid : Option HidePid)
    (root : CInt) : Step Unit := do
  lift (mkdiratAll root dstRel)
  mountNew "proc"
    (fun fs => do
      setOption fs "subset" (subset.map subsetValue)
      setOption fs "hidepid" (hidepid.map hidepidValue))
    0
    (fun mnt => moveMountToFd mnt root dstRel)

def processMqueueMount (dstRel : PathText) (root : CInt) : Step Unit := do
  lift (mkdiratAll root dstRel)
  mountNew "mqueue" (fun _ => pure ()) 0 fun mnt => moveMountToFd mnt root dstRel

def processFileMount (dstRel : PathText) (content : List UInt8) (readOnly : Bool)
    (root staging : CInt) (contentCount : ℕ) : Step Unit := do
  lift do
    (Prog.perform (Mount.Op.writeFileAt (.fd staging) (stagingName contentCount) content) :
      Mount.Step Unit)
    ensureParentDirs root dstRel
    createFileAt root dstRel
  holding (lift (openTree (.fd staging) (stagingName contentCount)
      (OPEN_TREE_CLONE ||| OPEN_TREE_CLOEXEC))) fun mnt =>
    lift do
      whenever readOnly (setReadOnly mnt false)
      moveMountToFd mnt root dstRel

/-- The number of injected files after an entry. -/
def processMountEntry (root staging : CInt) (contentCount : ℕ) : MountEntry → Step ℕ
  | .bind source dstRel srcIsDir readOnly => do
    processBindMount source dstRel.toList srcIsDir readOnly root
    pure contentCount
  | .tmpfs dstRel readOnly sizeBytes mode => do
    processTmpfsMount dstRel.toList readOnly sizeBytes mode root
    pure contentCount
  | .proc dstRel subset hidepid => do
    processProcMount dstRel.toList subset hidepid root
    pure contentCount
  | .mqueue dstRel => do
    processMqueueMount dstRel.toList root
    pure contentCount
  | .file dstRel content readOnly => do
    processFileMount dstRel.toList content readOnly root staging contentCount
    pure (contentCount + 1)

/-! ## `/dev` -/

def mountFs (fsType : String) (root : CInt) (relDst : PathText) (attrFlags : UInt64)
    (options : List (String × String)) (flags : List String) : Step Unit :=
  mountNew fsType
    (fun fs => do
      setOptions fs options
      setFlags fs flags)
    attrFlags
    (fun mnt => moveMountToFd mnt root relDst)

def bindDevices (dev : CInt) : List String → Step Unit
  | [] => pure ()
  | name :: names => do
    lift (createFileAt dev name.toList)
    holding (lift (openTree .cwd ("/dev/" ++ name).toList
        (OPEN_TREE_CLONE ||| OPEN_TREE_CLOEXEC))) fun mnt =>
      lift (moveMountToFd mnt dev name.toList)
    bindDevices dev names

def setupDev (root : CInt) : Step Unit := do
  lift (mkdiratAll root DEV)
  mountFs "tmpfs" root DEV (MOUNT_ATTR_NOSUID ||| MOUNT_ATTR_NOEXEC) [("mode", "0755")] []
  holding (lift (openatDir (.fd root) DEV)) fun dev => do
    bindDevices dev devices
    lift (mkdiratAll dev SHM)
    mountFs "tmpfs" dev SHM (MOUNT_ATTR_NOSUID ||| MOUNT_ATTR_NODEV) [("mode", "1777")] []
    lift (mkdiratAll dev PTS)
    mountFs "devpts" dev PTS (MOUNT_ATTR_NOSUID ||| MOUNT_ATTR_NOEXEC)
      [("ptmxmode", "0666"), ("mode", "620")] ["newinstance"]
    lift (symlinks dev devLinks)

/-! ## The stage -/

def setupRoot : Step CInt := do
  lift do
    mountSetattr .cwd ROOT_SLASH AT_RECURSIVE { propagation := MS_PRIVATE }
    mkdirNewRoot
  mountNew "tmpfs" (fun _ => pure ()) 0 fun mnt => do
    (Prog.perform (Mount.Op.moveMount mnt .cwd NEW_ROOT_ABS) : Mount.Step Unit)
    openatDir .cwd NEW_ROOT_ABS

/-- `map_err(|err| MountError::new(err, detail))`. -/
def withDetail {α : Type} (detail : CInt) (x : Step α) :
    Program.Owned.Step Mount.Op.Out MountError α :=
  mapError (fun err => ⟨err, detail⟩) x

/-- The loop over the entries of the plan. -/
def processEntries (root staging : CInt) :
    ℕ → ℕ → List MountEntry → Program.Owned.Step Mount.Op.Out MountError ℕ
  | _, contentCount, [] => pure contentCount
  | idx, contentCount, entry :: entries => do
    let contentCount ←
      withDetail (1000 + Int32.ofNat idx) (processMountEntry root staging contentCount entry)
    processEntries root staging (idx + 1) contentCount entries

def setup (plan : MountPlan) : Program.Owned.Step Mount.Op.Out MountError Unit :=
  holding (withDetail 0 setupRoot) fun root => do
    withDetail 0 (lift (mkdiratAll root PUT_OLD))
    withDetail 0 (lift (mkdiratAll root CONTENT_STAGING))
    holding (withDetail 0 (lift (openatDir (.fd root) CONTENT_STAGING))) fun staging => do
      withDetail 2000 (setupDev root)
      let contentCount ← processEntries root staging 0 0 plan.entries
      withDetail 3000 (lift (pivotAndCleanup root staging contentCount))

/-! ## Without the closing -/

theorem erase_withDetail {α : Type} (detail : CInt) (x : Step α) :
    erase (withDetail detail x) = Mount.withDetail detail (erase x) :=
  erase_mapError _ x

theorem erase_mountNew {α : Type} (fsName : String) (configure : CInt → Mount.Step Unit)
    (attrFlags : UInt64) (attach : CInt → Mount.Step α) :
    erase (mountNew fsName configure attrFlags attach) =
      (do
        let fs ← fsopen fsName
        configure fs
        fsconfigCreate fs
        let mnt ← fsmount fs attrFlags
        attach mnt) := by
  unfold mountNew
  simp only [erase_holding, erase_bind, erase_lift, Prog.except_bind_assoc]

theorem erase_processMountEntry (root staging : CInt) (contentCount : ℕ) (entry : MountEntry) :
    erase (processMountEntry root staging contentCount entry) =
      Mount.processMountEntry root staging contentCount entry := by
  cases entry with
  | bind source dstRel srcIsDir readOnly =>
    cases source with
    | path path =>
      simp only [processMountEntry, Mount.processMountEntry, processBindMount, attachBind,
        Mount.processBindMount, bindTree, erase_pure, erase_bind, erase_holding, erase_lift,
        Prog.except_bind_assoc]
    | prepared fd =>
      simp only [processMountEntry, Mount.processMountEntry, processBindMount, attachBind,
        Mount.processBindMount, bindTree, erase_pure, erase_bind, erase_holding, erase_lift,
        Prog.except_bind_assoc]
      rfl
  | tmpfs dstRel readOnly sizeBytes mode =>
    simp only [processMountEntry, Mount.processMountEntry, processTmpfsMount,
      Mount.processTmpfsMount, erase_pure, erase_bind, erase_mountNew, erase_lift,
      Prog.except_bind_assoc]
  | proc dstRel subset hidepid =>
    simp only [processMountEntry, Mount.processMountEntry, processProcMount,
      Mount.processProcMount, erase_pure, erase_bind, erase_mountNew, erase_lift,
      Prog.except_bind_assoc]
  | mqueue dstRel =>
    simp only [processMountEntry, Mount.processMountEntry, processMqueueMount,
      Mount.processMqueueMount, erase_pure, erase_bind, erase_mountNew, erase_lift,
      Prog.except_bind_assoc]
    rfl
  | file dstRel content readOnly =>
    simp only [processMountEntry, Mount.processMountEntry, processFileMount,
      Mount.processFileMount, erase_pure, erase_bind, erase_holding, erase_lift,
      Prog.except_bind_assoc]

theorem erase_mountFs (fsType : String) (root : CInt) (relDst : PathText) (attrFlags : UInt64)
    (options : List (String × String)) (flags : List String) :
    erase (mountFs fsType root relDst attrFlags options flags) =
      Mount.mountFs fsType root relDst attrFlags options flags := by
  simp only [mountFs, Mount.mountFs, erase_mountNew, Prog.except_bind_assoc]

theorem erase_bindDevices (dev : CInt) : ∀ names : List String,
    erase (bindDevices dev names) = Mount.bindDevices dev names
  | [] => rfl
  | name :: names => by
    simp only [bindDevices, Mount.bindDevices, erase_bind, erase_holding, erase_lift,
      erase_bindDevices dev names, Prog.except_bind_assoc]

theorem erase_setupDev (root : CInt) : erase (setupDev root) = Mount.setupDev root := by
  simp only [setupDev, Mount.setupDev, erase_bind, erase_holding, erase_lift, erase_mountFs,
    erase_bindDevices]

theorem erase_setupRoot : erase setupRoot = Mount.setupRoot := by
  simp only [setupRoot, Mount.setupRoot, erase_bind, erase_lift, erase_mountNew,
    Prog.except_bind_assoc]
  rfl

theorem erase_processEntries (root staging : CInt) : ∀ (entries : List MountEntry)
    (idx contentCount : ℕ), erase (processEntries root staging idx contentCount entries) =
      Mount.processEntries root staging idx contentCount entries
  | [], _, _ => rfl
  | entry :: entries, idx, contentCount => by
    simp only [processEntries, Mount.processEntries, erase_bind, erase_withDetail,
      erase_processMountEntry, erase_processEntries root staging entries]

/-- But for the closing, the stage makes the calls of the plain stage. -/
theorem erase_setup (plan : MountPlan) : erase (setup plan) = Mount.setup plan := by
  simp only [setup, Mount.setup, erase_bind, erase_holding, erase_withDetail, erase_lift,
    erase_setupRoot, erase_setupDev, erase_processEntries]

end Pnut.Child.Mount.Owned
