import Pnut.Lib.Collect
import Pnut.Sandbox.Mount

/-!
# Where mounts go

The child hands the kernel exactly the destinations of the table and their prefixes, relative to the
new root. Nothing looks at `..`, so they stay below the new root exactly when the destinations do,
as far as the child gets with them.
-/

namespace Pnut.Child.Mount

open Program Prog
open Peg (byteLen)
open Path (Contained components componentsFrom descend fitting flush join)

/-- What a call resolves from a descriptor stays below it. -/
def Below (op : Op) : Prop :=
  ∀ fd path, op.place = some (.fd fd, path) → Contained path

/-- The step may succeed. -/
def Passes {α : Type} (x : Step α) : Prop := ∃ a, Returns (.ok a) x

/-! ## Single calls -/

section Steps

variable {α β : Type} {Q : Op → Prop}

@[simp] theorem always_perform (op : Op) :
    Always Q (Prog.perform op : Prog Op Op.Out (Op.Out op)) ↔ Q op := by
  simp [Prog.perform]

@[simp] theorem returns_perform (op : Op) (out : Op.Out op) :
    Returns out (Prog.perform op : Prog Op Op.Out (Op.Out op)) := ⟨out, rfl⟩

@[simp] theorem always_pure (a : α) : Always Q (pure a : Step α) ↔ True := Iff.rfl

@[simp] theorem returns_pure {a b : α} : Returns (.ok b) (pure a : Step α) ↔ a = b := by
  show Except.ok a = Except.ok b ↔ a = b
  rw [Except.ok.injEq]

@[simp] theorem always_throw (e : Errno) : Always Q (throw e : Step α) ↔ True := Iff.rfl

@[simp] theorem returns_throw {e : Errno} {a : α} : ¬ Returns (.ok a) (throw e : Step α) := by
  intro h
  cases h

theorem passes_bind {x : Step α} {f : α → Step β} :
    Passes (x >>= f) ↔ ∃ a, Returns (.ok a) x ∧ Passes (f a) := by
  unfold Passes
  simp only [returns_ok_bind]
  constructor
  · rintro ⟨b, a, ha, hb⟩
    exact ⟨a, ha, b, hb⟩
  · rintro ⟨a, ha, b, hb⟩
    exact ⟨b, a, ha, hb⟩

theorem always_seq {x : Step Unit} {y : Step β} :
    Always Q (x >>= fun _ => y : Step β) ↔ Always Q x ∧ (Passes x → Always Q y) := by
  rw [always_except_bind]
  exact and_congr_right fun _ => ⟨fun h ⟨a, ha⟩ => h a ha, fun h a ha => h ⟨a, ha⟩⟩

theorem passes_seq {x : Step Unit} {y : Step β} :
    Passes (x >>= fun _ => y) ↔ Passes x ∧ Passes y := by
  rw [passes_bind]
  exact ⟨fun ⟨a, ha, hy⟩ => ⟨⟨a, ha⟩, hy⟩, fun ⟨⟨a, ha⟩, hy⟩ => ⟨a, ha, hy⟩⟩

end Steps

/-! ## Making directories -/

section Directories

variable {dir : CInt}

theorem below_fd {op : Op} {fd : CInt} {path : PathText} (h : op.place = some (.fd fd, path)) :
    Below op ↔ Contained path := by
  unfold Below
  rw [h]
  constructor
  · exact fun hbelow => hbelow fd path rfl
  · intro hpath fd' path' heq
    cases heq
    exact hpath

theorem always_mkdirat {path : PathText} :
    Always Below (mkdirat dir path) ↔ Contained path := by
  have hop : Below (.mkdirat (.fd dir) path) ↔ Contained path := below_fd rfl
  unfold mkdirat
  rw [always_except_bind]
  constructor
  · rintro ⟨h, -⟩
    exact hop.1 h.1
  · intro h
    refine ⟨⟨hop.2 h, fun _ => trivial⟩, ?_⟩
    rintro (err | _) -
    · dsimp only
      split_ifs <;> trivial
    · trivial

theorem passes_mkdirat {path : PathText} : Passes (mkdirat dir path) :=
  ⟨(), (.ok () : Except Errno Unit), rfl⟩

/-- A component that has been read is made, if the path with it fits the buffer. -/
theorem mkdirComponent_eq {cumulative component : PathText} (h : component ≠ []) :
    mkdirComponent dir cumulative component =
      if byteLen (join cumulative component) < MAX_PATH_BYTES then do
        mkdirat dir (join cumulative component)
        pure (join cumulative component)
      else throw ENAMETOOLONG := by
  have hpos : 0 < byteLen component := by
    rcases component with _ | ⟨c, s⟩
    · exact absurd rfl h
    · have := c.utf8Size_pos
      rw [byteLen]
      omega
  unfold mkdirComponent join
  rw [if_neg h]
  by_cases hcum : cumulative = []
  · subst hcum
    simp only [ne_eq, not_true_eq_false, false_and, if_false, List.nil_append, if_true, byteLen,
      Nat.zero_add]
    by_cases hfit : byteLen component < MAX_PATH_BYTES
    · rw [if_pos hfit, if_neg (by omega)]
    · rw [if_neg hfit, if_pos (by omega)]
  · have hslash : byteLen ['/'] = 1 := rfl
    have hlen : byteLen (cumulative ++ '/' :: component) =
        byteLen cumulative + 1 + byteLen component := by
      rw [Text.byteLen_append, byteLen, Nat.add_assoc]
      rfl
    simp only [ne_eq, hcum, not_false_eq_true, true_and, if_true, if_false, Text.byteLen_append,
      hslash, List.append_assoc, List.singleton_append, hlen]
    by_cases hfit : byteLen cumulative + 1 + byteLen component < MAX_PATH_BYTES
    · rw [if_pos hfit, if_neg (by omega), if_neg (by omega)]
    · rw [if_neg hfit]
      by_cases hfull : MAX_PATH_BYTES ≤ byteLen cumulative + 1
      · rw [if_pos hfull]
      · rw [if_neg hfull, if_pos (by omega)]

/-- The directories of a path's components, in order. -/
def makeAll (dir : CInt) : PathText → List PathText → Step Unit
  | _, [] => pure ()
  | cumulative, c :: cs =>
    if byteLen (join cumulative c) < MAX_PATH_BYTES then do
      mkdirat dir (join cumulative c)
      makeAll dir (join cumulative c) cs
    else throw ENAMETOOLONG

theorem mkdirComponent_bind (cumulative component : PathText) (k : PathText → Step Unit)
    (cs : List PathText) (hk : ∀ path, k path = makeAll dir path cs) :
    (mkdirComponent dir cumulative component >>= k) =
      makeAll dir cumulative (flush component ++ cs) := by
  unfold flush
  by_cases hne : component = []
  · rw [if_pos hne, List.nil_append, ← hk]
    unfold mkdirComponent
    rw [if_pos hne]
    rfl
  · rw [if_neg hne, List.singleton_append, makeAll, mkdirComponent_eq hne]
    split_ifs with hfit
    · rw [except_bind_assoc, ← hk]
      rfl
    · rfl

/-- The loop over the bytes makes the directories of the components. -/
theorem mkdiratFrom_eq (rest : PathText) : ∀ cumulative component : PathText,
    mkdiratFrom dir cumulative component rest =
      makeAll dir cumulative (componentsFrom component rest) := by
  induction rest with
  | nil =>
    intro cumulative component
    rw [mkdiratFrom, componentsFrom, ← List.append_nil (flush component)]
    exact mkdirComponent_bind cumulative component _ [] fun path => rfl
  | cons c rest ih =>
    intro cumulative component
    rw [mkdiratFrom, componentsFrom]
    split_ifs with hc
    · exact mkdirComponent_bind cumulative component _ _ fun path => ih path []
    · exact ih cumulative _

theorem mkdiratAll_eq (path : PathText) :
    mkdiratAll dir path = makeAll dir [] (components path) := mkdiratFrom_eq path [] []

theorem passes_makeAll (cs : List PathText) : ∀ cumulative : PathText,
    Passes (makeAll dir cumulative cs) ↔ fitting MAX_PATH_BYTES cumulative cs = cs := by
  induction cs with
  | nil => exact fun cumulative => ⟨fun _ => rfl, fun _ => ⟨(), rfl⟩⟩
  | cons c cs ih =>
    intro cumulative
    rw [makeAll, fitting]
    split_ifs with hfit
    · rw [passes_seq, ih, List.cons.injEq]
      exact and_congr (iff_of_true passes_mkdirat rfl) Iff.rfl
    · refine iff_of_false ?_ not_false
      rintro ⟨_, ha⟩
      exact returns_throw ha

/-- The paths are those of the components that fit the buffer. -/
theorem always_makeAll (cs : List PathText) : ∀ (cumulative : PathText) (depth : ℕ),
    (∀ c ∈ cs, c ≠ [] ∧ '/' ∉ c) → cumulative.head? ≠ some '/' →
    descend 0 (components cumulative) = some depth →
    (Always Below (makeAll dir cumulative cs) ↔
      (descend depth (fitting MAX_PATH_BYTES cumulative cs)).isSome) := by
  induction cs with
  | nil => exact fun _ _ _ _ _ => ⟨fun _ => rfl, fun _ => trivial⟩
  | cons c cs ih =>
    intro cumulative depth hcs hhead hdepth
    obtain ⟨⟨hne, hslash⟩, hcs⟩ := List.forall_mem_cons.1 hcs
    have hhead' := Path.join_head hhead hslash
    have hdepth' : descend 0 (components (join cumulative c)) = descend depth [c] := by
      rw [Path.components_join hslash, flush, if_neg hne, Path.descend_append, hdepth]
      rfl
    rw [makeAll, fitting]
    split_ifs with hfit
    · rw [always_seq, always_mkdirat, ← List.singleton_append, Path.descend_append]
      unfold Contained
      rw [hdepth']
      rcases hstep : descend depth [c] with _ | deeper
      · exact ⟨fun h => absurd h.1.2 (by simp), fun h => by simp at h⟩
      · rw [hstep] at hdepth'
        have htail := ih (join cumulative c) deeper hcs hhead' hdepth'
        exact ⟨fun h => htail.1 (h.2 passes_mkdirat),
          fun h => ⟨⟨hhead', rfl⟩, fun _ => htail.2 h⟩⟩
    · exact ⟨fun _ => rfl, fun _ => trivial⟩

end Directories

/-! ## Mount points -/

section Points

variable {root : CInt} {dst : PathText}

/-- The parent of a path is what comes before its last slash. -/
theorem parentOf_some {p : PathText} : ∀ {parent : PathText}, parentOf p = some parent →
    ∃ name, p = parent ++ '/' :: name := by
  induction p with
  | nil =>
    intro parent h
    cases h
  | cons c p ih =>
    intro parent h
    unfold parentOf at h
    rcases hp : parentOf p with _ | front
    · rw [hp] at h
      dsimp only at h
      split_ifs at h with hc
      obtain rfl := Option.some.inj h
      exact ⟨p, by rw [hc, List.nil_append]⟩
    · rw [hp] at h
      obtain rfl := Option.some.inj h
      obtain ⟨name, hname⟩ := ih hp
      exact ⟨name, by rw [hname, List.cons_append]⟩

/-- The parent of a path does not fit the buffer. -/
def parentTooLong (dst : PathText) : Bool :=
  match parentOf dst with
  | none => false
  | some parent => decide (MAX_PATH_BYTES ≤ byteLen parent)

/-- The components of a mount point that the child comes to: of a directory those that fit the
buffer, of a file all, if its parent does. -/
def touched (isDir : Bool) (dst : PathText) : List PathText :=
  if isDir then fitting MAX_PATH_BYTES [] (components dst)
  else if parentTooLong dst then [] else components dst

/-- The child stops at a mount point with `ENAMETOOLONG`. -/
def Overflows (isDir : Bool) (dst : PathText) : Prop :=
  if isDir then fitting MAX_PATH_BYTES [] (components dst) ≠ components dst
  else parentTooLong dst = true

theorem always_mkdiratAll {path : PathText} : Always Below (mkdiratAll root path) ↔
    (descend 0 (fitting MAX_PATH_BYTES [] (components path))).isSome := by
  rw [mkdiratAll_eq]
  exact always_makeAll _ _ 0 (Path.mem_componentsFrom path [] List.not_mem_nil) (by simp) rfl

theorem passes_mkdiratAll {path : PathText} : Passes (mkdiratAll root path) ↔
    fitting MAX_PATH_BYTES [] (components path) = components path := by
  rw [mkdiratAll_eq, passes_makeAll]

theorem fitting_components {path : PathText} (h : byteLen path < MAX_PATH_BYTES) :
    fitting MAX_PATH_BYTES [] (components path) = components path :=
  Path.fitting_of_lt path [] [] (by simpa [Path.joinBase, byteLen] using h)

variable (root dst) in
/-- The parent directories of a file stay below the root if the file does. -/
theorem ensureParentDirs_spec :
    (parentTooLong dst = true → Always Below (ensureParentDirs root dst) ∧
      ¬ Passes (ensureParentDirs root dst)) ∧
    (parentTooLong dst = false → Passes (ensureParentDirs root dst) ∧
      ((descend 0 (components dst)).isSome → Always Below (ensureParentDirs root dst))) := by
  unfold parentTooLong ensureParentDirs
  rcases hparent : parentOf dst with _ | parent
  · exact ⟨nofun, fun _ => ⟨⟨(), rfl⟩, fun _ => trivial⟩⟩
  · obtain ⟨name, rfl⟩ := parentOf_some hparent
    dsimp only
    rw [decide_eq_true_eq, decide_eq_false_iff_not]
    refine ⟨fun hlong => ?_, fun hshort => ?_⟩
    · have hpos : 0 < MAX_PATH_BYTES := by decide
      rw [if_neg (by omega), if_pos (by omega)]
      exact ⟨trivial, fun ⟨_, ha⟩ => returns_throw ha⟩
    · by_cases hzero : byteLen parent = 0
      · rw [if_pos hzero]
        exact ⟨⟨(), rfl⟩, fun _ => trivial⟩
      · have hfit : fitting MAX_PATH_BYTES [] (components parent) = components parent :=
          fitting_components (by omega)
        rw [if_neg hzero, if_neg (by omega), passes_mkdiratAll, always_mkdiratAll, hfit,
          Path.components_slash]
        exact ⟨rfl, Path.descend_isSome_of_append⟩

theorem below_createFileAt : Always Below (createFileAt root dst) ↔ Contained dst :=
  (always_perform _).trans (below_fd rfl)

theorem passes_createFileAt : Passes (createFileAt root dst) :=
  ⟨(), (.ok () : Except Errno Unit), rfl⟩

theorem passes_ensureMountPoint {isDir : Bool} :
    Passes (ensureMountPoint root dst isDir) ↔ ¬ Overflows isDir dst := by
  unfold ensureMountPoint Overflows
  rcases isDir with _ | _
  · obtain ⟨hlong, hshort⟩ := ensureParentDirs_spec root dst
    simp only [Bool.false_eq_true, if_false, passes_seq]
    rcases hp : parentTooLong dst with _ | _
    · exact iff_of_true ⟨(hshort hp).1, passes_createFileAt⟩ nofun
    · exact iff_of_false (fun h => (hlong hp).2 h.1) fun h => h rfl
  · rw [if_pos rfl, if_pos rfl, not_not]
    exact passes_mkdiratAll

/-- A mount point stays below the root exactly when what the child comes to of it does. -/
theorem always_ensureMountPoint (hhead : dst.head? ≠ some '/') {isDir : Bool} :
    Always Below (ensureMountPoint root dst isDir) ↔ (descend 0 (touched isDir dst)).isSome := by
  unfold ensureMountPoint touched
  rcases isDir with _ | _
  · obtain ⟨hlong, hshort⟩ := ensureParentDirs_spec root dst
    simp only [Bool.false_eq_true, if_false, always_seq, below_createFileAt]
    rcases hp : parentTooLong dst with _ | _
    · obtain ⟨hpasses, halways⟩ := hshort hp
      exact ⟨fun h => (h.2 hpasses).2, fun h => ⟨halways h, fun _ => ⟨hhead, h⟩⟩⟩
    · obtain ⟨halways, hpasses⟩ := hlong hp
      exact ⟨fun _ => rfl, fun _ => ⟨halways, fun h => absurd h hpasses⟩⟩
  · rw [if_pos rfl, if_pos rfl]
    exact always_mkdiratAll

/-- The child has come to all of a mount point that does not overflow. -/
theorem contained_of_touched (hhead : dst.head? ≠ some '/') {isDir : Bool}
    (hfits : ¬ Overflows isDir dst) (h : (descend 0 (touched isDir dst)).isSome) :
    Contained dst := by
  have htouched : touched isDir dst = components dst := by
    unfold touched
    unfold Overflows at hfits
    rcases isDir with _ | _
    · rw [if_neg Bool.false_ne_true, if_neg]
      simpa using hfits
    · simpa using hfits
  rw [htouched] at h
  exact ⟨hhead, h⟩

/-- A mount on its mount point. -/
theorem always_mounted (hhead : dst.head? ≠ some '/') {isDir : Bool} {α : Type} {mount : Step α}
    (hmount : Contained dst → Always Below mount) :
    Always Below (ensureMountPoint root dst isDir >>= fun _ => mount : Step α) ↔
      (descend 0 (touched isDir dst)).isSome := by
  rw [always_seq, always_ensureMountPoint hhead, passes_ensureMountPoint]
  exact ⟨fun h => h.1, fun h => ⟨h, fun hfits => hmount (contained_of_touched hhead hfits h)⟩⟩

end Points

/-! ## Entries -/

/-- Where an entry is mounted. -/
def dstOf : MountEntry → PathText
  | .bind _ dstRel _ _ => dstRel.toList
  | .tmpfs dstRel _ _ _ => dstRel.toList
  | .proc dstRel _ _ => dstRel.toList
  | .mqueue dstRel => dstRel.toList
  | .file dstRel _ _ => dstRel.toList

/-- The mount point of an entry is a directory. -/
def onDir : MountEntry → Bool
  | .bind _ _ srcIsDir _ => srcIsDir
  | .file _ _ _ => false
  | _ => true

/-- An entry of a prepared table: its destination is relative, its source a path. -/
structure Relative (entry : MountEntry) : Prop where
  head : (dstOf entry).head? ≠ some '/'
  source : ∀ fd dstRel srcIsDir readOnly, entry ≠ .bind (.prepared fd) dstRel srcIsDir readOnly

section Entries

variable {root staging : CInt} {dst : PathText}

theorem below_of_none {op : Op} (h : op.place = none) : Below op := by
  intro fd path hplace
  rw [h] at hplace
  cases hplace

theorem below_of_cwd {op : Op} {path : PathText} (h : op.place = some (.cwd, path)) :
    Below op := by
  intro fd path' hplace
  rw [h] at hplace
  cases hplace

/-- A mount that is detached is named by the empty path. -/
theorem below_empty {op : Op} {fd : CInt} (h : op.place = some (.fd fd, EMPTY_PATH)) :
    Below op := (below_fd h).2 (by decide)

/-- A step that stays below the root, and may succeed. -/
structure Sound {α : Type} (x : Step α) : Prop where
  always : Always Below x
  passes : Passes x

theorem Sound.pure {α : Type} (a : α) : Sound (Pure.pure a : Step α) := ⟨trivial, a, rfl⟩

theorem Sound.bind {α β : Type} {x : Step α} {f : α → Step β} (hx : Sound x)
    (hf : ∀ a, Sound (f a)) : Sound (x >>= f) := by
  refine ⟨always_except_bind.2 ⟨hx.always, fun a _ => (hf a).always⟩, passes_bind.2 ?_⟩
  obtain ⟨a, ha⟩ := hx.passes
  exact ⟨a, ha, (hf a).passes⟩

theorem Sound.ite {α : Type} {c : Prop} [Decidable c] {x y : Step α} (hx : Sound x)
    (hy : Sound y) : Sound (if c then x else y) := by
  split_ifs
  · exact hx
  · exact hy

theorem sound_openTree {dir : Dir} {path : PathText} {flags : UInt32}
    (h : Below (.openTree dir path flags)) : Sound (openTree dir path flags) :=
  ⟨⟨h, fun _ => trivial⟩, 0, (.ok 0 : Except Errno CInt), rfl⟩

theorem sound_openatDir {dir : Dir} {path : PathText} (h : Below (.openatDir dir path)) :
    Sound (openatDir dir path) :=
  ⟨⟨h, fun _ => trivial⟩, 0, (.ok 0 : Except Errno CInt), rfl⟩

theorem sound_fsopen {fsName : String} : Sound (fsopen fsName) :=
  ⟨⟨below_of_none rfl, fun _ => trivial⟩, 0, (.ok 0 : Except Errno CInt), rfl⟩

theorem sound_fsmount {fs : CInt} {attrFlags : UInt64} : Sound (fsmount fs attrFlags) :=
  ⟨⟨below_of_none rfl, fun _ => trivial⟩, 0, (.ok 0 : Except Errno CInt), rfl⟩

theorem sound_fsconfigCreate {fs : CInt} : Sound (fsconfigCreate fs) :=
  ⟨⟨below_of_none rfl, fun _ => trivial⟩, (), (.ok () : Except Errno Unit), rfl⟩

theorem sound_fsconfigSetString {fs : CInt} {key value : String} :
    Sound (fsconfigSetString fs key value) :=
  ⟨⟨below_of_none rfl, fun _ => trivial⟩, (), (.ok () : Except Errno Unit), rfl⟩

theorem sound_moveMountToFd {mnt : CInt} (h : Contained dst) :
    Sound (moveMountToFd mnt root dst) :=
  ⟨⟨(below_fd rfl).2 h, fun _ => trivial⟩, (), (.ok () : Except Errno Unit), rfl⟩

theorem sound_createFileAt (h : Contained dst) : Sound (createFileAt root dst) :=
  ⟨below_createFileAt.2 h, passes_createFileAt⟩

theorem sound_setReadOnly {mnt : CInt} {recursive : Bool} :
    Sound (setReadOnly mnt recursive) :=
  ⟨⟨below_empty rfl, fun _ => trivial⟩, (), (.ok () : Except Errno Unit), rfl⟩

theorem sound_whenever {c : Bool} {x : Step Unit} (h : Sound x) : Sound (whenever c x) :=
  h.ite (.pure ())

theorem sound_setOption {fs : CInt} {key : String} {value : Option String} :
    Sound (setOption fs key value) := by
  rcases value with _ | value
  · exact .pure ()
  · exact sound_fsconfigSetString

/-- What follows the mount point of a bind mount. -/
def bindOn (root : CInt) (dst : PathText) (srcIsDir readOnly : Bool) (source : BindMountSource) :
    Step Unit := do
  let mnt ← bindTree root dst srcIsDir readOnly source
  whenever readOnly (setReadOnly mnt srcIsDir)
  moveMountToFd mnt root dst

theorem sound_bindOn {path : String} {srcIsDir readOnly : Bool} (h : Contained dst) :
    Sound (bindOn root dst srcIsDir readOnly (.path path)) := by
  refine (sound_openTree (below_of_cwd rfl)).bind fun mnt => ?_
  exact (sound_whenever sound_setReadOnly).bind fun _ => sound_moveMountToFd h

/-- A file system that is mounted when its options are set. -/
def mountNew (fsName : String) (options : CInt → Step Unit) (attrFlags : UInt64)
    (finish : CInt → Step Unit) (root : CInt) (dst : PathText) : Step Unit := do
  let fs ← fsopen fsName
  options fs
  fsconfigCreate fs
  let mnt ← fsmount fs attrFlags
  finish mnt
  moveMountToFd mnt root dst

theorem sound_mountNew {fsName : String} {options finish : CInt → Step Unit} {attrFlags : UInt64}
    (hoptions : ∀ fs, Sound (options fs)) (hfinish : ∀ mnt, Sound (finish mnt))
    (h : Contained dst) : Sound (mountNew fsName options attrFlags finish root dst) := by
  refine sound_fsopen.bind fun fs => (hoptions fs).bind fun _ => ?_
  refine sound_fsconfigCreate.bind fun _ => sound_fsmount.bind fun mnt => ?_
  exact (hfinish mnt).bind fun _ => sound_moveMountToFd h

theorem contained_stagingName (index : ℕ) : Contained (stagingName index) := by
  have hdigits : '/' ∉ Nat.toDigits 10 index := by
    intro hmem
    have hdigit : Char.isDigit '/' := Nat.isDigit_of_mem_toDigits (by decide) le_rfl hmem
    exact absurd hdigit (by decide)
  have hcons : stagingName index = 'c' :: ("ontent-".toList ++ Nat.toDigits 10 index) := rfl
  have hslash : '/' ∉ stagingName index := by
    unfold stagingName
    rw [List.mem_append, not_or]
    exact ⟨by decide, hdigits⟩
  have hne : stagingName index ≠ [] := by
    rw [hcons]
    exact List.cons_ne_nil _ _
  have hname : ∀ name : PathText, name.head? ≠ some 'c' → stagingName index ≠ name := by
    rintro name hhead rfl
    exact hhead (by rw [hcons, List.head?_cons])
  refine ⟨?_, ?_⟩
  · rw [hcons, List.head?_cons]
    decide
  · rw [Path.components_of_not_mem hslash, flush, if_neg hne, descend,
      if_neg (hname _ (by decide)), if_neg (hname _ (by decide))]
    rfl

/-- What follows the mount point of an injected file. -/
def fileOn (root staging : CInt) (dst : PathText) (readOnly : Bool) (contentCount : ℕ) :
    Step Unit := do
  let mnt ←
    openTree (.fd staging) (stagingName contentCount) (OPEN_TREE_CLONE ||| OPEN_TREE_CLOEXEC)
  whenever readOnly (setReadOnly mnt false)
  moveMountToFd mnt root dst

theorem sound_fileOn {readOnly : Bool} {contentCount : ℕ} (h : Contained dst) :
    Sound (fileOn root staging dst readOnly contentCount) := by
  refine (sound_openTree ((below_fd rfl).2 (contained_stagingName contentCount))).bind fun _ => ?_
  exact (sound_whenever sound_setReadOnly).bind fun _ => sound_moveMountToFd h

variable (root staging) in
/-- An entry is a mount on its mount point; an injected file is written out first. -/
theorem processMountEntry_eq (contentCount : ℕ) (entry : MountEntry) (h : Relative entry) :
    ∃ (before mount : Step Unit) (count : ℕ),
      processMountEntry root staging contentCount entry =
        (before >>= fun _ => ensureMountPoint root (dstOf entry) (onDir entry) >>= fun _ =>
          mount >>= fun _ => pure count) ∧
      Sound before ∧ (Contained (dstOf entry) → Sound mount) := by
  rcases entry with ⟨source, dstRel, srcIsDir, readOnly⟩ | ⟨dstRel, readOnly, sizeBytes, mode⟩ |
    ⟨dstRel, subset, hidepid⟩ | ⟨dstRel⟩ | ⟨dstRel, content, readOnly⟩
  · rcases source with path | fd
    · refine ⟨pure (), bindOn root dstRel.toList srcIsDir readOnly (.path path), contentCount,
        ?_, .pure (), sound_bindOn⟩
      exact except_bind_assoc _ _ _
    · exact absurd rfl (h.source fd dstRel srcIsDir readOnly)
  · refine ⟨pure (), mountNew "tmpfs" (fun fs => do
      setOption fs "size" (sizeBytes.map decimal)
      setOption fs "mode" (mode.map octal)) 0 (fun mnt => whenever readOnly (setReadOnly mnt false))
      root dstRel.toList, contentCount, ?_, .pure (), sound_mountNew
        (fun fs => sound_setOption.bind fun _ => sound_setOption)
        fun mnt => sound_whenever sound_setReadOnly⟩
    simp only [processMountEntry, processTmpfsMount, mountNew, except_bind_assoc]
    rfl
  · refine ⟨pure (), mountNew "proc" (fun fs => do
      setOption fs "subset" (subset.map subsetValue)
      setOption fs "hidepid" (hidepid.map hidepidValue)) 0 (fun _ => pure ())
      root dstRel.toList, contentCount, ?_, .pure (), sound_mountNew
        (fun fs => sound_setOption.bind fun _ => sound_setOption) fun mnt => .pure ()⟩
    simp only [processMountEntry, processProcMount, mountNew, except_bind_assoc]
    rfl
  · refine ⟨pure (), mountNew "mqueue" (fun _ => pure ()) 0 (fun _ => pure ()) root dstRel.toList,
      contentCount, ?_, .pure (), sound_mountNew (fun fs => .pure ()) fun mnt => .pure ()⟩
    simp only [processMountEntry, processMqueueMount, mountNew, except_bind_assoc]
    rfl
  · refine ⟨Prog.perform (Op.writeFileAt (.fd staging) (stagingName contentCount) content),
      fileOn root staging dstRel.toList readOnly contentCount, contentCount + 1, ?_,
      ⟨⟨(below_fd rfl).2 (contained_stagingName contentCount), fun _ => trivial⟩, (),
        (.ok () : Except Errno Unit), rfl⟩, sound_fileOn⟩
    simp only [processMountEntry, processFileMount, fileOn, ensureMountPoint, onDir, dstOf,
      Bool.false_eq_true, if_false, except_bind_assoc]

theorem always_processMountEntry (contentCount : ℕ) {entry : MountEntry} (h : Relative entry) :
    Always Below (processMountEntry root staging contentCount entry) ↔
      (descend 0 (touched (onDir entry) (dstOf entry))).isSome := by
  obtain ⟨before, mount, count, heq, hbefore, hmount⟩ :=
    processMountEntry_eq root staging contentCount entry h
  have hmounted : Contained (dstOf entry) →
      Always Below (mount >>= fun _ => pure count : Step ℕ) :=
    fun hdst => ((hmount hdst).bind fun _ => .pure count).always
  rw [heq, always_seq, always_mounted h.head hmounted]
  exact ⟨fun h => h.2 hbefore.passes, fun h => ⟨hbefore.always, fun _ => h⟩⟩

variable (root staging) in
/-- An entry that stays below the root may succeed exactly when it does not overflow. -/
theorem passes_processMountEntry (contentCount : ℕ) {entry : MountEntry} (h : Relative entry)
    (hbelow : (descend 0 (touched (onDir entry) (dstOf entry))).isSome) :
    Passes (processMountEntry root staging contentCount entry) ↔
      ¬ Overflows (onDir entry) (dstOf entry) := by
  obtain ⟨before, mount, count, heq, hbefore, hmount⟩ :=
    processMountEntry_eq root staging contentCount entry h
  rw [heq, passes_seq, passes_seq, passes_ensureMountPoint, passes_seq]
  refine ⟨fun h => h.2.1, fun hfits => ⟨hbefore.passes, hfits, ?_, count, rfl⟩⟩
  exact (hmount (contained_of_touched h.head hfits hbelow)).passes

theorem always_withDetail {α : Type} {Q : Op → Prop} {detail : CInt} {x : Step α} :
    Always Q (withDetail detail x) ↔ Always Q x := by
  have h := always_bind (Q := Q) (p := x)
    (f := fun r => Prog.ret (Except.mapError (fun err => MountError.mk err detail) r))
  exact h.trans ⟨fun h => h.1, fun h => ⟨h, fun _ _ => trivial⟩⟩

theorem returns_withDetail {α : Type} {detail : CInt} {x : Step α} {a : α} :
    Returns (.ok a) (withDetail detail x) ↔ Returns (.ok a) x := by
  have h := returns_bind (p := x) (b := Except.ok a)
    (f := fun r => Prog.ret (Except.mapError (fun err => MountError.mk err detail) r))
  refine h.trans ⟨?_, fun hx => ⟨_, hx, rfl⟩⟩
  rintro ⟨e | b, hx, hb⟩
  · cases hb
  · cases hb
    exact hx

/-- The destinations stay below the root, as far as the child gets: it stops at the first that
does not fit its buffer. -/
def StaysBelow : List (Bool × PathText) → Prop
  | [] => True
  | (isDir, dst) :: rest =>
    (descend 0 (touched isDir dst)).isSome ∧ (Overflows isDir dst ∨ StaysBelow rest)

theorem always_processEntries : ∀ (entries : List MountEntry) (idx contentCount : ℕ),
    (∀ entry ∈ entries, Relative entry) →
    (Always Below (processEntries root staging idx contentCount entries) ↔
      StaysBelow (entries.map fun entry => (onDir entry, dstOf entry)))
  | [], _, _, _ => Iff.rfl
  | entry :: entries, idx, contentCount, h => by
    obtain ⟨hentry, hentries⟩ := List.forall_mem_cons.1 h
    rw [processEntries, always_except_bind, always_withDetail,
      always_processMountEntry contentCount hentry, List.map_cons, StaysBelow]
    refine and_congr_right fun hbelow => ?_
    have hpasses := passes_processMountEntry root staging contentCount hentry hbelow
    by_cases hover : Overflows (onDir entry) (dstOf entry)
    · refine iff_of_true (fun count hcount => ?_) (.inl hover)
      exact absurd hover (hpasses.1 ⟨count, returns_withDetail.1 hcount⟩)
    · obtain ⟨count, hcount⟩ := hpasses.2 hover
      constructor
      · intro hrest
        exact .inr ((always_processEntries entries _ _ hentries).1
          (hrest count (returns_withDetail.2 hcount)))
      · rintro (hover' | hrest) count -
        · exact absurd hover' hover
        · exact (always_processEntries entries _ _ hentries).2 hrest

/-! ## The stage -/

theorem sound_mkdiratAll {path : PathText} (hlen : byteLen path < MAX_PATH_BYTES)
    (h : (descend 0 (components path)).isSome) : Sound (mkdiratAll root path) := by
  have hfit := fitting_components hlen
  refine ⟨always_mkdiratAll.2 ?_, passes_mkdiratAll.2 hfit⟩
  rwa [hfit]

theorem sound_setOptions (fs : CInt) : ∀ options, Sound (setOptions fs options)
  | [] => .pure ()
  | (_, _) :: options => sound_fsconfigSetString.bind fun _ => sound_setOptions fs options

theorem sound_setFlags (fs : CInt) : ∀ flags, Sound (setFlags fs flags)
  | [] => .pure ()
  | _ :: flags => by
    refine Sound.bind ?_ fun _ => sound_setFlags fs flags
    exact ⟨⟨below_of_none rfl, fun _ => trivial⟩, (), (.ok () : Except Errno Unit), rfl⟩

theorem sound_mountFs {fsType : String} {attrFlags : UInt64} {options : List (String × String)}
    {flags : List String} (h : Contained dst) :
    Sound (mountFs fsType root dst attrFlags options flags) := by
  refine sound_fsopen.bind fun fs => (sound_setOptions fs options).bind fun _ => ?_
  refine (sound_setFlags fs flags).bind fun _ => sound_fsconfigCreate.bind fun _ => ?_
  exact sound_fsmount.bind fun mnt => sound_moveMountToFd h

theorem sound_bindDevices {dev : CInt} : ∀ names : List String,
    (∀ name ∈ names, Contained name.toList) → Sound (bindDevices dev names)
  | [], _ => .pure ()
  | name :: names, h => by
    obtain ⟨hname, hnames⟩ := List.forall_mem_cons.1 h
    refine (sound_createFileAt hname).bind fun _ => ?_
    refine (sound_openTree (below_of_cwd rfl)).bind fun mnt => ?_
    exact (sound_moveMountToFd hname).bind fun _ => sound_bindDevices names hnames

theorem sound_symlinks {dev : CInt} : ∀ links : List (String × String),
    (∀ link ∈ links, Contained link.2.toList) → Sound (symlinks dev links)
  | [], _ => .pure ()
  | (target, name) :: links, h => by
    obtain ⟨hname, hlinks⟩ := List.forall_mem_cons.1 h
    refine Sound.bind ?_ fun _ => sound_symlinks links hlinks
    exact ⟨⟨(below_fd rfl).2 hname, fun _ => trivial⟩, (), (.ok () : Except Errno Unit), rfl⟩

theorem sound_setupDev : Sound (setupDev root) := by
  refine (sound_mkdiratAll (by decide) (by decide)).bind fun _ => ?_
  refine (sound_mountFs (by decide)).bind fun _ => ?_
  refine (sound_openatDir ((below_fd rfl).2 (by decide))).bind fun dev => ?_
  refine (sound_bindDevices devices (by decide)).bind fun _ => ?_
  refine (sound_mkdiratAll (by decide) (by decide)).bind fun _ => ?_
  refine (sound_mountFs (by decide)).bind fun _ => ?_
  refine (sound_mkdiratAll (by decide) (by decide)).bind fun _ => ?_
  refine (sound_mountFs (by decide)).bind fun _ => ?_
  exact sound_symlinks devLinks (by decide)

theorem sound_mkdirNewRoot : Sound mkdirNewRoot := by
  refine ⟨always_except_bind.2 ⟨⟨below_of_cwd rfl, fun _ => trivial⟩, ?_⟩, (),
    (.ok () : Except Errno Unit), rfl⟩
  rintro (err | _) -
  · dsimp only
    split_ifs <;> trivial
  · trivial

theorem sound_setupRoot : Sound setupRoot := by
  refine Sound.bind ?_ fun _ => sound_mkdirNewRoot.bind fun _ => sound_fsopen.bind fun fs => ?_
  · exact ⟨⟨below_of_cwd rfl, fun _ => trivial⟩, (), (.ok () : Except Errno Unit), rfl⟩
  refine sound_fsconfigCreate.bind fun _ => sound_fsmount.bind fun mnt => ?_
  refine Sound.bind ?_ fun _ => sound_openatDir (below_of_cwd rfl)
  exact ⟨⟨below_of_cwd rfl, fun _ => trivial⟩, (), (.ok () : Except Errno Unit), rfl⟩

theorem always_cleanupStaging : ∀ indices : List ℕ, Always Below (cleanupStaging staging indices)
  | [] => trivial
  | idx :: rest => by
    refine always_except_bind.2 ⟨⟨(below_fd rfl).2 (contained_stagingName idx), fun _ => trivial⟩,
      fun _ _ => always_cleanupStaging rest⟩

theorem always_pivotAndCleanup (contentCount : ℕ) :
    Always Below (pivotAndCleanup root staging contentCount) := by
  refine always_except_bind.2 ⟨⟨below_of_none rfl, fun _ => trivial⟩, fun _ _ => ?_⟩
  refine always_except_bind.2 ⟨⟨below_of_none rfl, fun _ => trivial⟩, fun _ _ => ?_⟩
  refine always_except_bind.2 ⟨⟨below_of_cwd rfl, fun _ => trivial⟩, fun _ _ => ?_⟩
  refine always_except_bind.2 ⟨always_cleanupStaging _, fun _ _ => ?_⟩
  refine always_except_bind.2 ⟨⟨below_of_cwd rfl, fun _ => trivial⟩, fun _ _ => ?_⟩
  refine always_except_bind.2 ⟨⟨below_of_cwd rfl, fun _ => trivial⟩, fun _ _ => ?_⟩
  exact ⟨below_of_cwd rfl, fun _ => trivial⟩

/-- The steps before the entries do not depend on the plan. -/
theorem always_bind_withDetail {α β : Type} {detail : CInt} {x : Step α} (hx : Sound x)
    {P : Prop} {f : α → ExceptT MountError (Prog Op Op.Out) β}
    (hf : ∀ a, Always Below (f a) ↔ P) :
    Always Below (withDetail detail x >>= f : ExceptT MountError (Prog Op Op.Out) β) ↔ P := by
  rw [always_except_bind, always_withDetail]
  obtain ⟨a, ha⟩ := hx.passes
  exact ⟨fun h => (hf a).1 (h.2 a (returns_withDetail.2 ha)),
    fun h => ⟨hx.always, fun b _ => (hf b).2 h⟩⟩

/-- The child stays below the new root exactly when the destinations do. -/
theorem always_setup {plan : MountPlan} (h : ∀ entry ∈ plan.entries, Relative entry) :
    Always Below (setup plan) ↔
      StaysBelow (plan.entries.map fun entry => (onDir entry, dstOf entry)) := by
  refine always_bind_withDetail sound_setupRoot fun root => ?_
  refine always_bind_withDetail (sound_mkdiratAll (by decide) (by decide)) fun _ => ?_
  refine always_bind_withDetail (sound_mkdiratAll (by decide) (by decide)) fun _ => ?_
  refine always_bind_withDetail (sound_openatDir ((below_fd rfl).2 (by decide))) fun staging => ?_
  refine always_bind_withDetail sound_setupDev fun _ => ?_
  rw [always_except_bind, always_processEntries plan.entries 0 0 h]
  exact ⟨fun h => h.1,
    fun h => ⟨h, fun count _ => always_withDetail.2 (always_pivotAndCleanup count)⟩⟩

end Entries

end Pnut.Child.Mount

namespace Pnut.Sandbox

open Program Child.Mount
open Collect (exists_of_bind)
open Path (Contained descend)

/-! ## Tables -/

section Tables

variable {sources : Sources}

/-- The destination of an entry, without the slashes in front. -/
def MountEntry.dst : MountEntry → List Char
  | .bind _ dst _ => (trimSlashes dst).toList
  | .tmpfs dst _ _ _ => (trimSlashes dst).toList
  | .proc dst _ _ => (trimSlashes dst).toList
  | .mqueue dst => (trimSlashes dst).toList
  | .file dst _ _ => (trimSlashes dst).toList

/-- The entry is mounted on a directory. -/
def MountEntry.onDir (sources : Sources) : MountEntry → Bool
  | .bind src _ _ => ((sources.isDir src).toOption).getD false
  | .file _ _ _ => false
  | _ => true

theorem trimSlashes_head (dst : String) : (trimSlashes dst).toList.head? ≠ some '/' := by
  intro h
  unfold trimSlashes at h
  rw [String.toList_ofList] at h
  have hnot := List.head?_dropWhile_not (fun c => decide (c = '/')) dst.toList
  rw [h] at hnot
  simp at hnot

/-- The child is handed the destinations, relative to the root. -/
theorem prepare_entry {entry : MountEntry} {prepared : Child.MountEntry}
    (h : entry.prepare sources = .ok prepared) :
    Relative prepared ∧ onDir prepared = entry.onDir sources ∧ dstOf prepared = entry.dst := by
  rcases entry with ⟨src, dst, readOnly⟩ | ⟨dst, size, mode, readOnly⟩ | ⟨dst, subset, hidepid⟩ |
    ⟨dst⟩ | ⟨dst, content, readOnly⟩
  · simp only [MountEntry.prepare] at h
    rcases hdir : sources.isDir src with e | srcIsDir
    · rw [hdir] at h
      cases h
    · rw [hdir] at h
      obtain ⟨source, -, h⟩ := exists_of_bind h
      obtain ⟨dstRel, hdst, h⟩ := exists_of_bind h
      obtain rfl := allocCstr_ok hdst
      obtain rfl := Except.ok.inj h
      refine ⟨⟨trimSlashes_head dst, nofun⟩, ?_, rfl⟩
      show srcIsDir = ((sources.isDir src).toOption).getD false
      rw [hdir]
      rfl
  all_goals
    obtain ⟨dstRel, hdst, h⟩ := exists_of_bind h
    obtain rfl := allocCstr_ok hdst
    obtain rfl := Except.ok.inj h
    exact ⟨⟨trimSlashes_head dst, nofun⟩, rfl, rfl⟩

theorem prepareEntries_spec : ∀ {table : Table} {entries : List Child.MountEntry},
    prepareEntries sources table = .ok entries →
    (∀ entry ∈ entries, Relative entry) ∧
      entries.map (fun entry => (onDir entry, dstOf entry)) =
        table.map fun entry => (entry.onDir sources, entry.dst)
  | [], entries, h => by
    obtain rfl := Except.ok.inj h
    exact ⟨nofun, rfl⟩
  | entry :: table, entries, h => by
    obtain ⟨prepared, hprepared, h⟩ := exists_of_bind h
    obtain ⟨rest, hrest, h⟩ := exists_of_bind h
    obtain rfl := Except.ok.inj h
    obtain ⟨hrelative, hdir, hdst⟩ := prepare_entry hprepared
    obtain ⟨hrelatives, hmap⟩ := prepareEntries_spec hrest
    refine ⟨List.forall_mem_cons.2 ⟨hrelative, hrelatives⟩, ?_⟩
    rw [List.map_cons, List.map_cons, hdir, hdst, hmap]

/-- No path of a run leaves the directory that it is resolved from. -/
def KeepsBelow (plan : Child.MountPlan) : Prop :=
  ∀ t ending, Runs Op.Final (setup plan) t ending →
    ∀ event ∈ t, ∀ fd path, event.1.place = some (.fd fd, path) → Contained path

theorem keepsBelow_iff {plan : Child.MountPlan} :
    KeepsBelow plan ↔ Prog.Always Below (setup plan) := by
  have hout : ∀ op : Op, Nonempty (Op.Out op) := fun op => by
    rcases op <;> exact ⟨.error 0⟩
  exact (@Prog.always_iff_runs _ _ _ Below Op.Final hout _).symm

/-- The child stays below the new root exactly when no destination that it comes to climbs. -/
theorem table_keepsBelow_iff {table : Table} {plan : Child.MountPlan}
    (h : prepareTable sources table = .ok plan) :
    KeepsBelow plan ↔ StaysBelow (table.map fun entry => (entry.onDir sources, entry.dst)) := by
  obtain ⟨entries, hentries, h⟩ := exists_of_bind h
  obtain rfl := Except.ok.inj h
  obtain ⟨hrelative, hmap⟩ := prepareEntries_spec hentries
  rw [keepsBelow_iff, always_setup hrelative, hmap]

end Tables

/-- A host whose paths are all directories. -/
def directories : Sources := ⟨fun _ => true, fun _ => .ok true⟩

theorem dataTable_keepsBelow :
    prepareTable directories [.bind "/srv/data" "/data/../data" true] =
        .ok ⟨[.bind (.path "/srv/data") "data/../data" true true]⟩ ∧
      KeepsBelow ⟨[.bind (.path "/srv/data") "data/../data" true true]⟩ :=
  have h : prepareTable directories [.bind "/srv/data" "/data/../data" true] =
      .ok ⟨[.bind (.path "/srv/data") "data/../data" true true]⟩ := by rfl
  ⟨h, (table_keepsBelow_iff h).2 ⟨by decide +kernel, .inr trivial⟩⟩

/-- A sandbox accepts a destination that climbs out of its root. -/
theorem climbingTable_not_keepsBelow :
    validateTable directories true [.tmpfs "/../outside" none none false] = .ok () ∧
      prepareTable directories [.tmpfs "/../outside" none none false] =
        .ok ⟨[.tmpfs "../outside" false none none]⟩ ∧
      ¬ KeepsBelow ⟨[.tmpfs "../outside" false none none]⟩ := by
  refine ⟨rfl, by rfl, ?_⟩
  have hrelative : ∀ entry ∈ [Child.MountEntry.tmpfs "../outside" false none none],
      Relative entry := by
    intro entry hmem
    obtain rfl := List.mem_singleton.1 hmem
    exact ⟨by decide +kernel, nofun⟩
  rw [keepsBelow_iff, always_setup hrelative]
  exact fun h => absurd h.1 (by decide +kernel)

end Pnut.Sandbox
