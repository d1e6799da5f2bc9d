import Pnut.Proofs.Contained
import Pnut.Proofs.Numerals

/-!
# Staged files

The files with injected bytes are written under the numbers from 0 on, in the order of the entries,
and the names of different numbers differ, so the loop of the cleanup unlinks each of them once and
nothing else.
-/

namespace Pnut.Child

open Program Prog

/-! ## Names -/

namespace Digits

theorem nul_notMem_stagingText (index : UInt64) : 0 ∉ stagingText index := by
  have hnumeral : Renders 10 index.toNat (numeral 10 index.toNat) :=
    renders_numeral (by decide) le_rfl _
  unfold stagingText
  rw [List.mem_append, not_or]
  exact ⟨by decide, fun h => absurd (hnumeral.digits 0 h).1 (by decide)⟩

theorem length_stagingText_le (index : UInt64) : (stagingText index).length ≤ 28 := by
  have hlen := length_numeral_le (digits_length_u64 index) (by decide)
  have hprefix : PREFIX.length = 8 := rfl
  unfold stagingText
  rw [List.length_append]
  omega

theorem stagingText_injective : Function.Injective stagingText := by
  intro i j h
  have hi : Renders 10 i.toNat (numeral 10 i.toNat) := renders_numeral (by decide) le_rfl _
  have hj : Renders 10 j.toNat (numeral 10 j.toNat) := renders_numeral (by decide) le_rfl _
  have hsame : numeral 10 i.toNat = numeral 10 j.toNat := List.append_cancel_left h
  exact UInt64.toNat_inj.1 (hi.unique (hsame ▸ hj))

/-- The bytes of an ASCII text. -/
def bytesOf (text : Mount.PathText) : List UInt8 := text.map fun c => UInt8.ofNat c.toNat

/-- The name is the one that the file is written under. -/
theorem stagingText_eq (index : UInt64) :
    stagingText index = bytesOf (Mount.stagingName index.toNat) := by
  unfold stagingText Mount.stagingName bytesOf
  rw [List.map_append, ← numeral_eq_toDigits (by decide) le_rfl]
  rfl

/-- The numbers in the options of a mount are these. -/
theorem numeral_decimal (value : UInt64) :
    numeral 10 value.toNat = bytesOf (Mount.decimal value).toList := by
  have hlist : (Mount.decimal value).toList = Nat.toDigits 10 value.toNat := Nat.toList_repr
  rw [hlist]
  exact numeral_eq_toDigits (by decide) le_rfl _

theorem numeral_octal (value : UInt32) :
    numeral 8 value.toNat = bytesOf (Mount.octal value).toList := by
  unfold Mount.octal
  rw [String.toList_ofList]
  exact numeral_eq_toDigits (by decide) (by decide) _

end Digits

/-! ## Unlinking -/

namespace Directories

def unlinkFailure : Except Errno Unit → Option Errno
  | .ok () => none
  | .error err => some err

def unlinking (stagingFd : CInt) (name : List UInt8) : Check Op.Out Errno :=
  .call (.unlinkat stagingFd name 0) unlinkFailure

theorem rendered_pure_bind {α β : Type} (a : α) (f : α → Step β) :
    rendered (pure a) >>= f = f a := rfl

/-- A name is unlinked, and the buffer has its length again. -/
theorem unlinkStaged_bind {stagingFd : CInt} {buf : List UInt8} (hbuf : buf.length = 64)
    (index : UInt64) (k : List UInt8 → Step Unit) (checks : List (Check Op.Out Errno))
    (hk : ∀ buf', buf'.length = 64 →
      k buf' = (attempts checks).bind fun failure => .ret (outcome failure)) :
    (unlinkStaged stagingFd buf index >>= k) =
      (attempts (unlinking stagingFd (Digits.stagingText index) :: checks)).bind fun failure =>
        .ret (outcome failure) := by
  obtain ⟨name, hname⟩ : ∃ name, Digits.stagingText index = name := ⟨_, rfl⟩
  have hlen : name.length ≤ 28 := hname ▸ Digits.length_stagingText_le index
  have hread : readPath (name ++ [0]) = name :=
    readPath_cStr (hname ▸ Digits.nul_notMem_stagingText index)
  have hrest : (name ++ [0] ++ Digits.behind buf name).length = 64 := by
    unfold Digits.behind
    rw [List.length_append, List.length_append, List.length_drop, List.length_singleton]
    omega
  unfold unlinkStaged unlinking
  rw [Digits.stagingNameCstr_eq index hbuf, hname, rendered_pure_bind]
  unfold unlinkat
  dsimp only
  rw [hread]
  refine congrArg (Prog.call (Op.unlinkat stagingFd name 0)) ?_
  funext out
  rcases out with err | ⟨⟩
  · rfl
  · exact hk _ hrest

theorem unlinkStaged_all {stagingFd : CInt} (indices : List UInt64) : ∀ buf : List UInt8,
    buf.length = 64 →
    (indices.foldlM (unlinkStaged stagingFd) buf >>= fun _ => (pure () : Step Unit)) =
      (attempts ((indices.map Digits.stagingText).map (unlinking stagingFd))).bind fun failure =>
        .ret (outcome failure) := by
  induction indices with
  | nil => exact fun _ _ => rfl
  | cons index indices ih =>
    intro buf hbuf
    rw [List.foldlM_cons, except_bind_assoc, List.map_cons, List.map_cons]
    exact unlinkStaged_bind hbuf index _ _ fun buf' hbuf' => ih buf' hbuf'

/-- The names that are staged after so many files. -/
def stagedNames (contentCount : UInt64) : List (List UInt8) :=
  (List.range contentCount.toNat).map fun idx => Digits.stagingText (UInt64.ofNat idx)

theorem runs_cleanupStaging {stagingFd : CInt} {contentCount : UInt64}
    {t : List (Event Op.Out)} {e : Ending Op (Except Errno Unit)} :
    Runs Op.Final (cleanupStaging stagingFd contentCount) t e ↔
      ∃ failure, e = .returned (outcome failure) ∧
        Performs ((stagedNames contentCount).map (unlinking stagingFd)) t failure := by
  have hnames : stagedNames contentCount =
      ((List.range contentCount.toNat).map UInt64.ofNat).map Digits.stagingText := by
    rw [List.map_map]
    rfl
  unfold cleanupStaging
  rw [unlinkStaged_all _ _ List.length_replicate, hnames]
  refine runs_checks fun op judge hmem hfinal => ?_
  obtain ⟨name, -, hname⟩ := List.mem_map.1 hmem
  cases hname
  cases hfinal

theorem stagedNames_nodup (contentCount : UInt64) : (stagedNames contentCount).Nodup := by
  refine (List.nodup_map_iff_inj_on List.nodup_range).2 fun i hi j hj h => ?_
  have hlt := contentCount.toNat_lt
  rw [List.mem_range] at hi hj
  have hsame := congrArg UInt64.toNat (Digits.stagingText_injective h)
  rwa [UInt64.toNat_ofNat_of_lt' (hi.trans hlt), UInt64.toNat_ofNat_of_lt' (hj.trans hlt)] at hsame

end Directories

/-! ## Writing -/

namespace Mount

/-- The file that a call writes. -/
def written : Op → Option PathText
  | .writeFileAt _ path _ => some path
  | _ => none

/-- A step that writes no file. -/
def Quiet {α : Type} (x : Step α) : Prop := Always (fun op => written op = none) x

section Quiet

variable {α β : Type} {root dir : CInt} {dst : PathText}

theorem Quiet.pure (a : α) : Quiet (Pure.pure a : Step α) := trivial

theorem Quiet.throw (e : Errno) : Quiet (MonadExcept.throw e : Step α) := trivial

theorem Quiet.bind {x : Step α} {f : α → Step β} (hx : Quiet x) (hf : ∀ a, Quiet (f a)) :
    Quiet (x >>= f) := always_except_bind.2 ⟨hx, fun a _ => hf a⟩

theorem quiet_perform {op : Op} (h : written op = none) :
    Always (fun op => written op = none) (Prog.perform op : Prog Op Op.Out (Op.Out op)) :=
  ⟨h, fun _ => trivial⟩

theorem quiet_mkdirat {path : PathText} : Quiet (mkdirat dir path) := by
  refine Quiet.bind ⟨rfl, fun _ => trivial⟩ fun out => ?_
  rcases out with err | ⟨⟩
  · dsimp only
    split_ifs
    · exact Quiet.throw err
    · exact Quiet.pure ()
  · exact Quiet.pure ()

theorem quiet_mkdiratAll {path : PathText} : Quiet (mkdiratAll dir path) := by
  have hall : ∀ (cs : List PathText) (cumulative : PathText),
      Quiet (makeAll dir cumulative cs) := by
    intro cs
    induction cs with
    | nil => exact fun _ => Quiet.pure ()
    | cons c cs ih =>
      intro cumulative
      rw [makeAll]
      split_ifs
      · exact quiet_mkdirat.bind fun _ => ih _
      · exact Quiet.throw _
  rw [mkdiratAll_eq]
  exact hall _ _

theorem quiet_ensureParentDirs : Quiet (ensureParentDirs root dst) := by
  unfold ensureParentDirs
  split
  · exact Quiet.pure ()
  · split_ifs
    · exact Quiet.pure ()
    · exact Quiet.throw _
    · exact quiet_mkdiratAll

theorem quiet_fsopen {fsName : String} : Quiet (fsopen fsName) := quiet_perform rfl

theorem quiet_fsconfigCreate {fs : CInt} : Quiet (fsconfigCreate fs) := quiet_perform rfl

theorem quiet_fsmount {fs : CInt} {attrFlags : UInt64} : Quiet (fsmount fs attrFlags) :=
  quiet_perform rfl

theorem quiet_openTree {from' : Dir} {path : PathText} {flags : UInt32} :
    Quiet (openTree from' path flags) := quiet_perform rfl

theorem quiet_createFileAt : Quiet (createFileAt root dst) := quiet_perform rfl

theorem quiet_whenever {c : Bool} {x : Step Unit} (h : Quiet x) : Quiet (whenever c x) := by
  unfold whenever
  split_ifs
  · exact h
  · exact Quiet.pure ()

theorem quiet_setReadOnly {mnt : CInt} {recursive : Bool} : Quiet (setReadOnly mnt recursive) :=
  quiet_perform rfl

theorem quiet_moveMountToFd {mnt : CInt} : Quiet (moveMountToFd mnt root dst) := quiet_perform rfl

theorem quiet_setOption {fs : CInt} {key : String} {value : Option String} :
    Quiet (setOption fs key value) := by
  rcases value with _ | value
  · exact Quiet.pure ()
  · exact quiet_perform rfl

theorem quiet_bindTree {srcIsDir readOnly : Bool} {source : BindMountSource} :
    Quiet (bindTree root dst srcIsDir readOnly source) := by
  rcases source with path | fd
  · exact quiet_openTree
  · refine Quiet.bind (quiet_perform rfl) fun _ => ?_
    refine (quiet_whenever quiet_setReadOnly).bind fun _ => quiet_moveMountToFd.bind fun _ => ?_
    refine quiet_openTree.bind fun owned => Quiet.bind ?_ fun absolute => ?_
    · unfold rootAbsolutePath
      split_ifs
      · exact Quiet.throw _
      · exact Quiet.pure _
    · exact Quiet.bind (quiet_perform rfl) fun _ => Quiet.pure owned

end Quiet

section Entries

variable {root staging : CInt} {t : List (Event Op.Out)} {count count' : ℕ}

def filesOf (t : List (Event Op.Out)) : List PathText := t.filterMap fun event => written event.1

theorem Quiet.filesOf {α : Type} {x : Step α} {e : Ending Op (Except Errno α)} (h : Quiet x)
    (hr : Runs Op.Final x t e) : filesOf t = [] :=
  List.filterMap_eq_nil_iff.2 (always_of_runs hr h)

/-- The names from one number up to another. -/
def namesFrom (count count' : ℕ) : List PathText :=
  (List.range' count (count' - count)).map stagingName

theorem quiet_entry {x : Step Unit} (h : Quiet x)
    (hr : Runs Op.Final (x >>= fun _ => pure count : Step ℕ) t (.returned (.ok count'))) :
    count ≤ count' ∧ filesOf t = namesFrom count count' := by
  obtain ⟨t₁, t₂, ⟨⟩, rfl, h₁, h₂⟩ := hr.except_bind_inv
  obtain ⟨rfl, heq⟩ := h₂.ret_inv
  obtain rfl := Except.ok.inj (Ending.returned.inj heq)
  rw [List.append_nil, h.filesOf h₁, namesFrom, Nat.sub_self]
  exact ⟨le_rfl, rfl⟩

theorem withDetail_ok {α : Type} {detail : CInt} {x : Step α} {a : α}
    (h : Runs Op.Final (withDetail detail x) t (.returned (.ok a))) :
    Runs Op.Final x t (.returned (.ok a)) := by
  have hbind : Runs Op.Final ((x : Prog Op Op.Out (Except Errno α)) >>= fun r =>
      .ret (r.mapError fun err => (⟨err, detail⟩ : MountError))) t (.returned (.ok a)) := h
  rcases hbind.bind_inv with ⟨t₁, t₂, err | a', rfl, h₁, h₂⟩ | ⟨op, heq, -⟩
  · cases h₂.ret_inv.2
  · obtain ⟨rfl, heq⟩ := h₂.ret_inv
    obtain rfl := Except.ok.inj (Ending.returned.inj heq)
    rwa [List.append_nil]
  · cases heq

/-- An entry stages its file under the next number, if it has one. -/
theorem processMountEntry_staged {entry : MountEntry}
    (hr : Runs Op.Final (processMountEntry root staging count entry) t (.returned (.ok count'))) :
    count ≤ count' ∧ filesOf t = namesFrom count count' := by
  rcases entry with ⟨source, dstRel, srcIsDir, readOnly⟩ | ⟨dstRel, readOnly, sizeBytes, mode⟩ |
    ⟨dstRel, subset, hidepid⟩ | ⟨dstRel⟩ | ⟨dstRel, content, readOnly⟩
  · refine quiet_entry (Quiet.bind ?_ fun _ => quiet_bindTree.bind fun mnt =>
      (quiet_whenever quiet_setReadOnly).bind fun _ => quiet_moveMountToFd) hr
    unfold ensureMountPoint
    split_ifs
    · exact quiet_mkdiratAll
    · exact quiet_ensureParentDirs.bind fun _ => quiet_createFileAt
  · exact quiet_entry (quiet_mkdiratAll.bind fun _ => quiet_fsopen.bind fun fs =>
      quiet_setOption.bind fun _ => quiet_setOption.bind fun _ =>
        quiet_fsconfigCreate.bind fun _ => quiet_fsmount.bind fun mnt =>
          (quiet_whenever quiet_setReadOnly).bind fun _ => quiet_moveMountToFd) hr
  · exact quiet_entry (quiet_mkdiratAll.bind fun _ => quiet_fsopen.bind fun fs =>
      quiet_setOption.bind fun _ => quiet_setOption.bind fun _ =>
        quiet_fsconfigCreate.bind fun _ => quiet_fsmount.bind fun mnt => quiet_moveMountToFd) hr
  · exact quiet_entry (quiet_mkdiratAll.bind fun _ => quiet_fsopen.bind fun fs =>
      quiet_fsconfigCreate.bind fun _ => quiet_fsmount.bind fun mnt => quiet_moveMountToFd) hr
  · obtain ⟨t₁, t₂, ⟨⟩, rfl, h₁, h₂⟩ := hr.except_bind_inv
    obtain ⟨rfl, heq⟩ := h₂.ret_inv
    obtain rfl := Except.ok.inj (Ending.returned.inj heq)
    obtain ⟨s₁, s₂, ⟨⟩, rfl, hwrite, hrest⟩ := h₁.except_bind_inv
    have hquiet : filesOf s₂ = [] := Quiet.filesOf (quiet_ensureParentDirs.bind fun _ =>
      quiet_createFileAt.bind fun _ => quiet_openTree.bind fun mnt =>
        (quiet_whenever quiet_setReadOnly).bind fun _ => quiet_moveMountToFd) hrest
    have hfile : filesOf s₁ = [stagingName count] := by
      rcases Runs.call_inv hwrite with ⟨out, s, rfl, hs⟩ | ⟨-, -, hfinal⟩
      · rw [(Runs.ret_inv hs).1]
        rfl
      · exact absurd hfinal not_false
    refine ⟨Nat.le_succ count, ?_⟩
    rw [List.append_nil, filesOf, List.filterMap_append]
    show filesOf s₁ ++ filesOf s₂ = _
    rw [hfile, hquiet, namesFrom, Nat.add_sub_cancel_left]
    rfl

/-- The files of the entries are staged under the numbers in a row. -/
theorem processEntries_staged {entries : List MountEntry} : ∀ {idx count : ℕ}
    {t : List (Event Op.Out)}, Runs Op.Final (processEntries root staging idx count entries) t
      (.returned (.ok count')) → count ≤ count' ∧ filesOf t = namesFrom count count' := by
  induction entries with
  | nil =>
    intro idx count t hr
    obtain ⟨rfl, heq⟩ := Runs.ret_inv hr
    obtain rfl := Except.ok.inj (Ending.returned.inj heq)
    rw [namesFrom, Nat.sub_self]
    exact ⟨le_rfl, rfl⟩
  | cons entry entries ih =>
    intro idx count t hr
    obtain ⟨t₁, t₂, count₁, rfl, h₁, h₂⟩ := Runs.except_bind_inv hr
    obtain ⟨hle₁, hfiles₁⟩ := processMountEntry_staged (withDetail_ok h₁)
    obtain ⟨hle₂, hfiles₂⟩ := ih h₂
    refine ⟨hle₁.trans hle₂, ?_⟩
    rw [filesOf, List.filterMap_append]
    show filesOf t₁ ++ filesOf t₂ = _
    rw [hfiles₁, hfiles₂, namesFrom, namesFrom, namesFrom, ← List.map_append]
    congr 1
    have hsplit := List.range'_append_1 (s := count) (m := count₁ - count) (n := count' - count₁)
    rw [Nat.add_sub_cancel' hle₁] at hsplit
    rw [hsplit]
    congr 1
    omega

/-- What is staged is what the cleanup unlinks. -/
theorem filesOf_eq_stagedNames {entries : List MountEntry} {contentCount : UInt64}
    (hr : Runs Op.Final (processEntries root staging 0 0 entries) t
      (.returned (.ok contentCount.toNat))) :
    (filesOf t).map Digits.bytesOf = Directories.stagedNames contentCount := by
  have hlt := contentCount.toNat_lt
  rw [(processEntries_staged hr).2, namesFrom, Nat.sub_zero, ← List.range_eq_range', List.map_map]
  refine List.map_congr_left fun idx hidx => ?_
  rw [Digits.stagingText_eq,
    UInt64.toNat_ofNat_of_lt' ((List.mem_range.1 hidx).trans hlt)]
  rfl

end Entries

end Mount

/-! ## Numbers in their buffers -/

section Numbers

open Digits Directories

/-- Every number fits its buffer, and the string there denotes it, and is the one that the mount
stage hands on as an option; a mode is read back from its string; and the staged files have distinct
names, which are those that the cleanup unlinks. -/
theorem numbers_rendered (value : UInt64) (mode : UInt32) (sizeBuf : List.Vector UInt8 32)
    (modeBuf : List.Vector UInt8 16) (nameBuf : List.Vector UInt8 64) :
    (∃ text buf, decimalCstr value sizeBuf.1 = pure (text ++ [0], buf) ∧
      Renders 10 value.toNat text ∧ text = bytesOf (Mount.decimal value).toList) ∧
    (∃ text buf, octalCstr mode modeBuf.1 = pure (text ++ [0], buf) ∧
      Renders 8 mode.toNat text ∧ Cli.parsePerms (chars text) = mode ∧
      text = bytesOf (Mount.octal mode).toList) ∧
    (∃ buf, stagingNameCstr value nameBuf.1 = pure (stagingText value ++ [0], buf)) ∧
    Function.Injective stagingText ∧
    ∀ (root staging : CInt) (entries : List MountEntry) (t : List (Event Mount.Op.Out))
      (contentCount : UInt64),
      Runs Mount.Op.Final (Mount.processEntries root staging 0 0 entries) t
        (.returned (.ok contentCount.toNat)) →
      ((Mount.filesOf t).map bytesOf).Nodup ∧
      ∀ t' e, Runs Op.Final (cleanupStaging staging contentCount) t' e ↔
        ∃ failure, e = .returned (outcome failure) ∧
          Performs (((Mount.filesOf t).map bytesOf).map (unlinking staging)) t' failure := by
  have hdecimal : Renders 10 value.toNat _ := renders_numeral (by decide) le_rfl _
  have hoctal : Renders 8 mode.toNat _ := renders_numeral (by decide) (by decide) _
  refine ⟨⟨_, _, decimalCstr_eq value sizeBuf.2, hdecimal, numeral_decimal value⟩,
    ⟨_, _, octalCstr_eq mode modeBuf.2, hoctal, parsePerms_numeral mode, numeral_octal mode⟩,
    ⟨_, stagingNameCstr_eq value nameBuf.2⟩, stagingText_injective, ?_⟩
  intro root staging entries t contentCount hr
  rw [Mount.filesOf_eq_stagedNames hr]
  exact ⟨stagedNames_nodup contentCount, fun t' e => runs_cleanupStaging⟩

/-- The calls for two files: each is written, its place and its mount are made, and it is moved
there. -/
def twoFiles : List (Event Mount.Op.Out) :=
  [⟨.writeFileAt (.fd 4) (Mount.stagingName 0) [], .ok ()⟩, ⟨.createFileAt (.fd 3) ['a'], .ok ()⟩,
    ⟨.openTree (.fd 4) (Mount.stagingName 0) (Mount.OPEN_TREE_CLONE ||| Mount.OPEN_TREE_CLOEXEC),
      .ok 5⟩, ⟨.moveMount 5 (.fd 3) ['a'], .ok ()⟩,
    ⟨.writeFileAt (.fd 4) (Mount.stagingName 1) [7], .ok ()⟩,
    ⟨.createFileAt (.fd 3) ['b'], .ok ()⟩,
    ⟨.openTree (.fd 4) (Mount.stagingName 1) (Mount.OPEN_TREE_CLONE ||| Mount.OPEN_TREE_CLOEXEC),
      .ok 6⟩, ⟨.moveMount 6 (.fd 3) ['b'], .ok ()⟩]

theorem twoFiles_runs : Runs Mount.Op.Final
    (Mount.processEntries 3 4 0 0 [.file "a" [] false, .file "b" [7] false])
      twoFiles (.returned (.ok 2)) :=
  .call _ _ _ (.call _ _ _ (.call _ _ _ (.call _ _ _ (.call _ _ _ (.call _ _ _ (.call _ _ _
    (.call _ _ _ (.ret _))))))))

/-- The second name is not found any more. -/
theorem twoFiles_unlinked :
    Runs Op.Final (cleanupStaging 4 2) [⟨.unlinkat 4 (stagingText 0) 0, .ok ()⟩,
        ⟨.unlinkat 4 (stagingText 1) 0, .error ENOENT⟩] (.returned (.error ENOENT)) := by
  obtain ⟨-, -, -, -, hcleanup⟩ := numbers_rendered 0 0 ⟨List.replicate 32 0, List.length_replicate⟩
    ⟨List.replicate 16 0, List.length_replicate⟩ ⟨List.replicate 64 0, List.length_replicate⟩
  obtain ⟨-, hruns⟩ := hcleanup 3 4 _ twoFiles 2 twoFiles_runs
  exact (hruns _ _).2 ⟨some ENOENT, rfl, .passed rfl (.failed [] rfl)⟩

end Numbers

end Pnut.Child
