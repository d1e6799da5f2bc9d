import Pnut.Child.Owned
import Pnut.Proofs.Contained

/-!
# The mount table

A plan says what the mount stage does to the tree: a list of changes, in which a descriptor has no
part. Against a kernel that hands out descriptors for contexts, detached trees and directories, the
stage makes the changes of its plan in their order, up to where it stops, and each tree that it
attaches is by then as the plan wants it. Of the descriptors that it opens, none is left.
-/

namespace Pnut.Child.Mount

open Program Prog

/-! ## What a plan says -/

/-- Where a path leads, from the working directory or from a directory that was opened. -/
inductive Place where
  | host (path : PathText)
  | under (dir : Place) (path : PathText)

/-- What a tree shows. -/
inductive Source where
  | fresh (fsName : String) (options : List (String × Option String)) (attrFlags : UInt64)
  | copy (place : Place) (recursive : Bool)
  | prepared (fd : CInt)

/-- A detached tree, with the attributes that were set on it and the flags they were set with. -/
structure Tree where
  source : Source
  attrs : List (MountAttr × UInt32) := []

/-- What the stage does to what can be seen. The places of mounts are made on the way, where they
are not there already; that is not a change. -/
inductive Change where
  | setattr (place : Place) (flags : UInt32) (attr : MountAttr)
  | attach (place : Place) (tree : Tree)
  | write (place : Place) (content : List UInt8)
  | symlink (target : PathText) (place : Place)
  | unlink (place : Place)
  | detach (path : PathText) (flags : UInt32)
  | enter (place : Place)
  | pivot (newRoot putOld : PathText)
  | chdir (path : PathText)

section Plan

def rootPlace : Place := .host NEW_ROOT_ABS

def stagingPlace : Place := .under rootPlace CONTENT_STAGING

def devPlace : Place := .under rootPlace DEV

def rootChanges : List Change :=
  [.setattr (.host ROOT_SLASH) AT_RECURSIVE { propagation := MS_PRIVATE },
    .attach rootPlace { source := .fresh "tmpfs" [] 0 }]

def deviceChange (name : String) : Change :=
  .attach (.under devPlace name.toList) { source := .copy (.host ("/dev/" ++ name).toList) false }

def linkChange (link : String × String) : Change :=
  .symlink link.1.toList (.under devPlace link.2.toList)

def devChanges : List Change :=
  .attach devPlace
      { source := .fresh "tmpfs" [("mode", some "0755")]
          (MOUNT_ATTR_NOSUID ||| MOUNT_ATTR_NOEXEC) } ::
    devices.map deviceChange ++
    [.attach (.under devPlace SHM)
        { source := .fresh "tmpfs" [("mode", some "1777")]
            (MOUNT_ATTR_NOSUID ||| MOUNT_ATTR_NODEV) },
      .attach (.under devPlace PTS)
        { source := .fresh "devpts"
            [("ptmxmode", some "0666"), ("mode", some "620"), ("newinstance", none)]
            (MOUNT_ATTR_NOSUID ||| MOUNT_ATTR_NOEXEC) }] ++
    devLinks.map linkChange

/-- Read-only, if the entry is. -/
def readOnlyAttrs (readOnly recursive : Bool) : List (MountAttr × UInt32) :=
  if readOnly then
    [({ attrSet := MOUNT_ATTR_RDONLY }, AT_EMPTY_PATH ||| if recursive then AT_RECURSIVE else 0)]
  else []

def optionOf (key : String) (value : Option String) : List (String × Option String) :=
  value.toList.map fun value => (key, some value)

/-- The changes of an entry, behind so many injected files. -/
def entryChanges (contentCount : ℕ) : MountEntry → List Change
  | .bind (.path path) dstRel srcIsDir readOnly =>
    [.attach (.under rootPlace dstRel.toList)
      ⟨.copy (.host path.toList) true, readOnlyAttrs readOnly srcIsDir⟩]
  | .bind (.prepared fd) dstRel srcIsDir readOnly =>
    -- attached and detached again, to be copied in between
    [.attach (.under rootPlace dstRel.toList) ⟨.prepared fd,
        ({ propagation := MS_PRIVATE }, AT_EMPTY_PATH ||| AT_RECURSIVE) ::
          readOnlyAttrs readOnly srcIsDir⟩,
      .detach (NEW_ROOT_ABS ++ '/' :: dstRel.toList) MNT_DETACH,
      .attach (.under rootPlace dstRel.toList)
        ⟨.copy (.under rootPlace dstRel.toList) true, readOnlyAttrs readOnly srcIsDir⟩]
  | .tmpfs dstRel readOnly sizeBytes mode =>
    [.attach (.under rootPlace dstRel.toList)
      ⟨.fresh "tmpfs"
        (optionOf "size" (sizeBytes.map decimal) ++ optionOf "mode" (mode.map octal)) 0,
        readOnlyAttrs readOnly false⟩]
  | .proc dstRel subset hidepid =>
    [.attach (.under rootPlace dstRel.toList)
      { source := .fresh "proc" (optionOf "subset" (subset.map subsetValue) ++
          optionOf "hidepid" (hidepid.map hidepidValue)) 0 }]
  | .mqueue dstRel =>
    [.attach (.under rootPlace dstRel.toList) { source := .fresh "mqueue" [] 0 }]
  | .file dstRel content readOnly =>
    [.write (.under stagingPlace (stagingName contentCount)) content,
      .attach (.under rootPlace dstRel.toList)
        ⟨.copy (.under stagingPlace (stagingName contentCount)) false,
          readOnlyAttrs readOnly false⟩]

/-- The number of injected files, with an entry more. -/
def countWith (contentCount : ℕ) : MountEntry → ℕ
  | .file _ _ _ => contentCount + 1
  | _ => contentCount

def entriesChanges (contentCount : ℕ) : List MountEntry → List Change
  | [] => []
  | entry :: entries =>
    entryChanges contentCount entry ++ entriesChanges (countWith contentCount entry) entries

def countAll (contentCount : ℕ) (entries : List MountEntry) : ℕ :=
  entries.foldl countWith contentCount

def finalChanges (contentCount : ℕ) : List Change :=
  [.enter rootPlace, .pivot DOT DOT, .detach DOT MNT_DETACH] ++
    (List.range contentCount).map (fun idx => .unlink (.under stagingPlace (stagingName idx))) ++
    [.chdir ROOT_SLASH]

def changesOf (plan : MountPlan) : List Change :=
  rootChanges ++ devChanges ++ entriesChanges 0 plan.entries ++
    finalChanges (countAll 0 plan.entries)

/-- The descriptors that are lent to the stage. -/
def lentBy : MountEntry → List CInt
  | .bind (.prepared fd) _ _ _ => [fd]
  | _ => []

end Plan

/-! ## The kernel -/

inductive Object where
  | context (fsName : String) (options : List (String × Option String)) (created : Bool)
  | tree (tree : Tree)
  | dir (place : Place)

/-- The open descriptors of the child, and what it has changed. -/
abbrev World := Machine Object (List Change)

namespace World

variable (w : World)

def record (change : Change) : World := { w with state := w.state ++ [change] }

def dir (fd : CInt) : Place :=
  match w.table fd with
  | some (.dir place) => place
  | _ => .host []

def place : Dir → PathText → Place
  | .cwd, path => .host path
  | .fd n, path => .under (w.dir n) path

def tree (fd : CInt) : Tree :=
  match w.table fd with
  | some (.tree t) => t
  | _ => { source := .prepared fd }

/-- The filesystem of a context, mounted. -/
def mounted (fs : CInt) (attrFlags : UInt64) : Tree :=
  match w.table fs with
  | some (.context fsName options _) => { source := .fresh fsName options attrFlags }
  | _ => { source := .prepared fs }

/-- The change that a call makes when it succeeds. -/
def change : Mount.Op → Option Change
  | .mountSetattr .cwd path flags attr => some (.setattr (.host path) flags attr)
  | .moveMount mnt dir path => some (.attach (w.place dir path) (w.tree mnt))
  | .writeFileAt dir path content => some (.write (w.place dir path) content)
  | .symlinkat target dir path => some (.symlink target (w.place dir path))
  | .unlinkat dir path flags =>
    -- that an empty directory is removed is tried, and not looked at
    if flags = AT_REMOVEDIR then none else some (.unlink (w.place dir path))
  | .umount2 target flags => some (.detach target flags)
  | .fchdir fd => some (.enter (w.dir fd))
  | .pivotRoot newRoot putOld => some (.pivot newRoot putOld)
  | .chdir path => some (.chdir path)
  | _ => none

end World

namespace Object

def config (key : String) (value : Option String) : Object → Object
  | .context fsName options created => .context fsName (options ++ [(key, value)]) created
  | object => object

def create : Object → Object
  | .context fsName options _ => .context fsName options true
  | object => object

/-- The attributes are set, one after the other. -/
def mark (attrs : List (MountAttr × UInt32)) : Object → Object
  | .tree t => .tree { t with attrs := t.attrs ++ attrs }
  | object => object

end Object

/-- How a call came back: with an errno, or done, with a descriptor if it opens one. -/
def outcome : (op : Mount.Op) → Mount.Op.Out op → Except Errno (Option CInt)
  | .fsopen _, out => out.map some
  | .fsmount _ _, out => out.map some
  | .openTree _ _ _, out => out.map some
  | .openatDir _ _, out => out.map some
  | .mountSetattr _ _ _ _, out => out.map fun _ => none
  | .mkdir _, out => out.map fun _ => none
  | .fsconfigSetString _ _ _, out => out.map fun _ => none
  | .fsconfigSetFlag _ _, out => out.map fun _ => none
  | .fsconfigCreate _, out => out.map fun _ => none
  | .moveMount _ _ _, out => out.map fun _ => none
  | .mkdirat _ _, out => out.map fun _ => none
  | .createFileAt _ _, out => out.map fun _ => none
  | .writeFileAt _ _ _, out => out.map fun _ => none
  | .symlinkat _ _ _, out => out.map fun _ => none
  | .fchdir _, out => out.map fun _ => none
  | .pivotRoot _ _, out => out.map fun _ => none
  | .umount2 _ _, out => out.map fun _ => none
  | .unlinkat _ _ _, out => out.map fun _ => none
  | .chdir _, out => out.map fun _ => none

namespace World

variable (w : World)

/-- A call that succeeds, with the descriptor that it opens. -/
def succeed (op : Mount.Op) (fd : Option CInt) : World :=
  match op, fd with
  | .fsopen fsName, some fd => w.give fd (.context fsName [] false)
  | .fsmount fs attrFlags, some fd => w.give fd (.tree (w.mounted fs attrFlags))
  | .openTree dir path flags, some fd =>
    w.give fd (.tree { source := .copy (w.place dir path) (flags &&& AT_RECURSIVE != 0) })
  | .openatDir dir path, some fd => w.give fd (.dir (w.place dir path))
  | .fsconfigSetString fs key value, none => w.modify fs (.config key (some value))
  | .fsconfigSetFlag fs key, none => w.modify fs (.config key none)
  | .fsconfigCreate fs, none => w.modify fs .create
  | .mountSetattr (.fd mnt) _ flags attr, none => w.modify mnt (.mark [(attr, flags)])
  | op, _ => (w.change op).elim w w.record

/-- How a call is answered. One that fails changes nothing. -/
def Answers (op : Mount.Op) (out : Mount.Op.Out op) (w' : World) : Prop :=
  match outcome op out with
  | .error _ => w' = w
  | .ok fd => (∀ n ∈ fd, w.Fresh n) ∧ w' = w.succeed op fd

def IsDir : Dir → Prop
  | .cwd => True
  | .fd n => ∃ place, w.table n = some (.dir place)

def IsContext (fd : CInt) (created : Bool) : Prop :=
  ∃ fsName options, w.table fd = some (.context fsName options created)

def IsTree (fd : CInt) : Prop := ∃ tree, w.table fd = some (.tree tree)

/-- The descriptors of a call are open, and what the call takes them for. -/
def Ready : Mount.Op → Prop
  | .fsconfigSetString fs _ _ => w.IsContext fs false
  | .fsconfigSetFlag fs _ => w.IsContext fs false
  | .fsconfigCreate fs => w.IsContext fs false
  | .fsmount fs _ => w.IsContext fs true
  | .mountSetattr (.fd mnt) _ _ _ => w.IsTree mnt
  | .moveMount mnt dir _ => w.IsTree mnt ∧ w.IsDir dir
  | .openTree dir _ _ => w.IsDir dir
  | .openatDir dir _ => w.IsDir dir
  | .mkdirat dir _ => w.IsDir dir
  | .createFileAt dir _ => w.IsDir dir
  | .writeFileAt dir _ _ => w.IsDir dir
  | .symlinkat _ dir _ => w.IsDir dir
  | .unlinkat dir _ _ => w.IsDir dir
  | .fchdir fd => w.IsDir (.fd fd)
  | _ => True

end World

/-- The same, where descriptors are closed. -/
abbrev Owned.Answers := Program.Owned.Answers World.Answers

/-- A call that changes something makes a change that fits those before it. -/
def toward (fits : List Change → Prop) : Discipline Mount.Op Mount.Op.Out World where
  allowed w op := w.Ready op ∧ ∀ change, w.change op = some change → fits (w.state ++ [change])
  answers := World.Answers

/-! ## Worlds -/

namespace World

variable {w : World} {fd n : CInt} {object object' : Object} {f : Object → Object} {place : Place}
  {t : Tree}

theorem mark_mark (attrs attrs' : List (MountAttr × UInt32)) :
    (w.modify fd (.mark attrs)).modify fd (.mark attrs') =
      w.modify fd (.mark (attrs ++ attrs')) := by
  have hmark : ∀ object : Object,
      (object.mark attrs).mark attrs' = object.mark (attrs ++ attrs') := by
    rintro (_ | _ | _) <;> simp [Object.mark]
  rw [Machine.modify_modify]
  exact congrArg (w.modify fd) (funext hmark)

theorem dir_of (h : w.table n = some (.dir place)) : w.dir n = place := by
  unfold dir
  rw [h]

theorem tree_of (h : w.table n = some (.tree t)) : w.tree n = t := by
  unfold tree
  rw [h]

theorem answers_cases {op : Mount.Op} {out : Mount.Op.Out op} {w' : World}
    (h : w.Answers op out w') :
    (∃ err, outcome op out = .error err ∧ w' = w) ∨
      ∃ fd, outcome op out = .ok fd ∧ (∀ n ∈ fd, w.Fresh n) ∧ w' = w.succeed op fd := by
  change (match outcome op out with
    | .error _ => w' = w
    | .ok fd => (∀ n ∈ fd, w.Fresh n) ∧ w' = w.succeed op fd) at h
  cases hout : outcome op out with
  | error err =>
    rw [hout] at h
    exact .inl ⟨err, rfl, h⟩
  | ok fd =>
    rw [hout] at h
    exact .inr ⟨fd, rfl, h⟩

theorem mounted_of {fsName : String} {options : List (String × Option String)} {created : Bool}
    (h : w.table n = some (.context fsName options created)) (attrFlags : UInt64) :
    w.mounted n attrFlags = { source := .fresh fsName options attrFlags } := by
  unfold mounted
  rw [h]

end World

/-! ## Plain steps -/

/-- The changes that are to come fit, however many of them are made. -/
def Ahead (fits : List Change → Prop) (rest : List Change) (w : World) : Prop :=
  ∀ part, part <+: rest → fits (w.state ++ part)

section Plain

variable {α β : Type} {fits : List Change → Prop} {rest : List Change} {P : World → Prop}
  {Q : World → α → Prop} {R : World → β → Prop} {w : World} {change : Change} {mnt dir fs : CInt}
  {path : PathText} {place : Place} {t : Tree}

theorem Ahead.next (h : Ahead fits (change :: rest) w) : fits (w.state ++ [change]) :=
  h [change] ⟨rest, rfl⟩

theorem Ahead.record (h : Ahead fits (change :: rest) w) :
    Ahead fits rest (w.record change) := by
  intro part hpart
  have hfits := h (change :: part) ((List.prefix_cons_inj change).2 hpart)
  rwa [← List.singleton_append, ← List.append_assoc] at hfits

/-- A call, and what its outcome says. -/
theorem plain_call (op : Op) {f : Op.Out op → Except Errno α} {g : α → Option CInt}
    (hallowed : (toward fits).allowed w op) (hP : P w)
    (hQ : ∀ a, (∀ n ∈ g a, w.Fresh n) → Q (w.succeed op (g a)) a)
    (hf : ∀ out, outcome op out = (f out).map g) :
    Plain (toward fits) P Q w (Prog.call op fun out => .ret (f out)) := by
  refine ⟨hallowed, fun out w' hans => ?_⟩
  change either (fun w' _ => P w') Q w' (f out)
  have hout := hf out
  rcases World.answers_cases hans with ⟨err, herr, rfl⟩ | ⟨fd, hfd, hfresh, rfl⟩
  · rw [herr] at hout
    cases hresult : f out with
    | error err => exact hP
    | ok a =>
      rw [hresult] at hout
      cases hout
  · rw [hfd] at hout
    cases hresult : f out with
    | error err =>
      rw [hresult] at hout
      cases hout
    | ok a =>
      rw [hresult] at hout
      obtain rfl := Except.ok.inj hout
      exact hQ a hfresh

/-- A call that changes nothing that can be seen. -/
theorem plain_silent (op : Op) {Q : World → Unit → Prop} {f : Op.Out op → Except Errno Unit}
    (hready : w.Ready op) (hchange : w.change op = none) (hP : P w)
    (hQ : Q (w.succeed op none) ())
    (hf : ∀ out, outcome op out = (f out).map fun _ => none := by exact fun _ => rfl) :
    Plain (toward fits) P Q w (Prog.call op fun out => .ret (f out)) :=
  plain_call op ⟨hready, fun c hc => absurd (hchange.symm.trans hc) (by simp)⟩ hP
    (fun _ _ => hQ) hf

/-- A call that makes the next change. -/
theorem plain_change (op : Op) {Q : World → Unit → Prop} {f : Op.Out op → Except Errno Unit}
    (hready : w.Ready op) (hchange : w.change op = some change)
    (hahead : Ahead fits (change :: rest) w) (hP : P w) (hQ : Q (w.record change) ())
    (hf : ∀ out, outcome op out = (f out).map fun _ => none := by exact fun _ => rfl)
    (hdone : w.succeed op none = (w.change op).elim w w.record := by rfl) :
    Plain (toward fits) P Q w (Prog.call op fun out => .ret (f out)) := by
  refine plain_call op ⟨hready, ?_⟩ hP (fun _ _ => ?_) hf
  · rintro c hc
    obtain rfl := Option.some.inj (hchange.symm.trans hc)
    exact hahead.next
  · rw [hdone, hchange]
    exact hQ

/-- A call that opens a descriptor. -/
theorem plain_open (op : Op) {Q : World → CInt → Prop} {f : Op.Out op → Except Errno CInt}
    {object : Object} (hready : w.Ready op) (hchange : w.change op = none) (hP : P w)
    (hQ : ∀ fd, w.Fresh fd → Q (w.give fd object) fd)
    (hf : ∀ out, outcome op out = (f out).map some := by exact fun _ => rfl)
    (hdone : ∀ fd, w.succeed op (some fd) = w.give fd object := by exact fun _ => rfl) :
    Plain (toward fits) P Q w (Prog.call op fun out => .ret (f out)) := by
  refine plain_call op ⟨hready, fun c hc => absurd (hchange.symm.trans hc) (by simp)⟩ hP
    (fun fd hfresh => ?_) hf
  rw [hdone]
  exact hQ fd (hfresh fd rfl)

theorem plain_moveMount {Q : World → Unit → Prop} (htree : w.table mnt = some (.tree t))
    (hdir : w.table dir = some (.dir place))
    (hahead : Ahead fits (.attach (.under place path) t :: rest) w) (hP : P w)
    (hQ : Q (w.record (.attach (.under place path) t)) ()) :
    Plain (toward fits) P Q w (moveMountToFd mnt dir path) := by
  refine plain_change (.moveMount mnt (.fd dir) path) (f := id) ⟨⟨t, htree⟩, place, hdir⟩ ?_
    hahead hP hQ
  simp [World.change, World.place, World.dir_of hdir, World.tree_of htree]

/-- The attributes of a read-only entry are set on its tree. -/
theorem plain_readOnly {Q : World → Unit → Prop} {readOnly recursive : Bool}
    (htree : w.table mnt = some (.tree t)) (hP : P w)
    (hQ : Q (w.modify mnt (.mark (readOnlyAttrs readOnly recursive))) ()) :
    Plain (toward fits) P Q w (whenever readOnly (setReadOnly mnt recursive)) := by
  cases readOnly with
  | false =>
    refine plain_pure ?_
    rwa [Machine.modify_eq htree (by simp [Object.mark, readOnlyAttrs])] at hQ
  | true =>
    exact plain_silent (.mountSetattr (.fd mnt) EMPTY_PATH _ _) (f := id) ⟨t, htree⟩ rfl hP hQ

/-- The end of a mount: a tree that has just been opened gets the attributes, and is attached. -/
def Attaches (attach : CInt → Step Unit) (dir : CInt) (path : PathText)
    (attrs : List (MountAttr × UInt32)) : Prop :=
  ∀ (fits : List Change → Prop) (rest : List Change) (P : World → Prop) (Q : World → Unit → Prop)
    (w : World) (mnt : CInt) (source : Source) (place : Place),
    w.Fresh mnt → w.table dir = some (.dir place) →
    Ahead fits (.attach (.under place path) ⟨source, attrs⟩ :: rest) w →
    (∀ object, P (w.give mnt object)) →
    (∀ object, Q ((w.record (.attach (.under place path) ⟨source, attrs⟩)).give mnt object) ()) →
    Plain (toward fits) P Q (w.give mnt (.tree { source := source })) (attach mnt)

theorem attaches_move : Attaches (fun mnt => moveMountToFd mnt dir path) dir path [] := by
  intro fits rest P Q w mnt source place hfresh hdir hahead hP hQ
  exact plain_moveMount Machine.give_self (Machine.give_of_open hfresh hdir) hahead (hP _) (hQ _)

theorem attaches_readOnly {readOnly recursive : Bool} :
    Attaches (fun mnt => do
      whenever readOnly (setReadOnly mnt recursive)
      moveMountToFd mnt dir path) dir path (readOnlyAttrs readOnly recursive) := by
  intro fits rest P Q w mnt source place hfresh hdir hahead hP hQ
  refine Plain.bind (Q := fun w' _ => w' = w.give mnt
    (.tree ⟨source, readOnlyAttrs readOnly recursive⟩)) ?_ ?_
  · exact plain_readOnly Machine.give_self (hP _) Machine.modify_give
  · rintro _ ⟨⟩ rfl
    exact plain_moveMount Machine.give_self (Machine.give_of_open hfresh hdir) hahead (hP _) (hQ _)

/-! Making the places of mounts. -/

/-- A call that makes a directory or an empty file below a directory. -/
def Makes (dir : CInt) : Op → Prop
  | .mkdirat (.fd n) _ => n = dir
  | .createFileAt (.fd n) _ => n = dir
  | _ => False

theorem makes_mkdirat : Always (Makes dir) (mkdirat dir path) := by
  refine always_except_bind.2 ⟨⟨rfl, fun _ => trivial⟩, ?_⟩
  rintro (err | ⟨⟩) -
  · dsimp only
    split_ifs <;> trivial
  · trivial

theorem makes_mkdiratAll : Always (Makes dir) (mkdiratAll dir path) := by
  have hall : ∀ (cs : List PathText) (cumulative : PathText),
      Always (Makes dir) (makeAll dir cumulative cs) := by
    intro cs
    induction cs with
    | nil => exact fun _ => trivial
    | cons c cs ih =>
      intro cumulative
      rw [makeAll]
      split_ifs
      · exact always_except_bind.2 ⟨makes_mkdirat, fun _ _ => ih _⟩
      · trivial
  rw [mkdiratAll_eq]
  exact hall _ _

theorem makes_createFileAt : Always (Makes dir) (createFileAt dir path) :=
  ⟨rfl, fun _ => trivial⟩

theorem makes_ensureParentDirs : Always (Makes dir) (ensureParentDirs dir path) := by
  unfold ensureParentDirs
  split
  · trivial
  · split_ifs
    · trivial
    · trivial
    · exact makes_mkdiratAll

theorem makes_ensureMountPoint {isDir : Bool} :
    Always (Makes dir) (ensureMountPoint dir path isDir) := by
  unfold ensureMountPoint
  split_ifs
  · exact makes_mkdiratAll
  · exact always_except_bind.2 ⟨makes_ensureParentDirs, fun _ _ => makes_createFileAt⟩

/-- Making the places changes nothing. -/
theorem plain_makes {x : Step α} (hx : Always (Makes dir) (x : Prog Op Op.Out (Except Errno α)))
    (hdir : w.IsDir (.fd dir)) (hP : P w) (hQ : ∀ a, Q w a) : Plain (toward fits) P Q w x := by
  unfold Plain
  induction (x : Prog Op Op.Out (Except Errno α)) with
  | ret r =>
    rcases r with err | a
    · exact hP
    · exact hQ a
  | call op k ih =>
    obtain ⟨hop, hk⟩ := hx
    cases op with
    | mkdirat d p =>
      cases d with
      | cwd => exact hop.elim
      | fd n =>
        obtain rfl := hop
        refine ⟨⟨hdir, nofun⟩, fun out w' hans => ?_⟩
        have hsame : w' = w := by
          rcases out with err | ⟨⟩
          · exact hans
          · exact hans.2
        obtain rfl := hsame
        exact ih out (hk out)
    | createFileAt d p =>
      cases d with
      | cwd => exact hop.elim
      | fd n =>
        obtain rfl := hop
        refine ⟨⟨hdir, nofun⟩, fun out w' hans => ?_⟩
        have hsame : w' = w := by
          rcases out with err | ⟨⟩
          · exact hans
          · exact hans.2
        obtain rfl := hsame
        exact ih out (hk out)
    | _ => exact hop.elim

/-! Options of a context. -/

/-- The step adds the options to a context. -/
def Adds (step : CInt → Step Unit) (options : List (String × Option String)) : Prop :=
  ∀ (fits : List Change → Prop) (P : World → Prop) (Q : World → Unit → Prop) (w : World) (fs : CInt)
    (fsName : String) (before : List (String × Option String)),
    (∀ object, P (w.give fs object)) →
    Q (w.give fs (.context fsName (before ++ options) false)) () →
    Plain (toward fits) P Q (w.give fs (.context fsName before false)) (step fs)

theorem adds_nil : Adds (fun _ => pure ()) [] := by
  intro fits P Q w fs fsName before _ hQ
  rw [List.append_nil] at hQ
  exact plain_pure hQ

theorem Adds.append {step step' : CInt → Step Unit}
    {options options' : List (String × Option String)}
    (h : Adds step options) (h' : Adds step' options') :
    Adds (fun fs => do
      step fs
      step' fs) (options ++ options') := by
  intro fits P Q w fs fsName before hP hQ
  refine Plain.bind (Q := fun w' _ => w' = w.give fs (.context fsName (before ++ options) false))
    (h fits _ _ w fs fsName before hP rfl) ?_
  rintro _ ⟨⟩ rfl
  refine h' fits _ _ w fs fsName _ hP ?_
  rwa [List.append_assoc]

theorem adds_string (key value : String) :
    Adds (fun fs => fsconfigSetString fs key value) [(key, some value)] := by
  intro fits P Q w fs fsName before hP hQ
  refine plain_silent (.fsconfigSetString fs key value) (f := id) ⟨_, _, Machine.give_self⟩ rfl
    (hP _) ?_
  show Q (Machine.modify _ fs _) ()
  rwa [Machine.modify_give]

theorem adds_flag (key : String) :
    Adds (fun fs => (Prog.perform (Op.fsconfigSetFlag fs key) : Step Unit)) [(key, none)] := by
  intro fits P Q w fs fsName before hP hQ
  refine plain_silent (.fsconfigSetFlag fs key) (f := id) ⟨_, _, Machine.give_self⟩ rfl (hP _) ?_
  show Q (Machine.modify _ fs _) ()
  rwa [Machine.modify_give]

theorem adds_option (key : String) (value : Option String) :
    Adds (fun fs => setOption fs key value) (optionOf key value) := by
  cases value with
  | none => exact adds_nil
  | some value => exact adds_string key value

theorem adds_options : ∀ options : List (String × String),
    Adds (fun fs => setOptions fs options) (options.map fun option => (option.1, some option.2))
  | [] => adds_nil
  | (key, value) :: options => (adds_string key value).append (adds_options options)

theorem adds_flags : ∀ flags : List String,
    Adds (fun fs => setFlags fs flags) (flags.map fun key => (key, none))
  | [] => adds_nil
  | key :: flags => (adds_flag key).append (adds_flags flags)

/-! Descriptors. -/

section Open

variable {Q : World → CInt → Prop}

theorem plain_fsopen {fsName : String} (hP : P w)
    (hQ : ∀ fs, w.Fresh fs → Q (w.give fs (.context fsName [] false)) fs) :
    Plain (toward fits) P Q w (fsopen fsName) :=
  plain_open (.fsopen fsName) (f := id) trivial rfl hP hQ

theorem plain_fsmount {fsName : String} {options : List (String × Option String)}
    {attrFlags : UInt64} (hcontext : w.table fs = some (.context fsName options true)) (hP : P w)
    (hQ : ∀ mnt, w.Fresh mnt →
      Q (w.give mnt (.tree { source := .fresh fsName options attrFlags })) mnt) :
    Plain (toward fits) P Q w (fsmount fs attrFlags) := by
  refine plain_open (.fsmount fs attrFlags) (f := id) ⟨_, _, hcontext⟩ rfl hP hQ
    (fun _ => rfl) fun mnt => ?_
  show w.give mnt (.tree (w.mounted fs attrFlags)) = _
  rw [World.mounted_of hcontext]

theorem plain_openTree_host {flags : UInt32} (hP : P w)
    (hQ : ∀ mnt, w.Fresh mnt →
      Q (w.give mnt (.tree { source := .copy (.host path) (flags &&& AT_RECURSIVE != 0) })) mnt) :
    Plain (toward fits) P Q w (openTree .cwd path flags) :=
  plain_open (.openTree .cwd path flags) (f := id) trivial rfl hP hQ

theorem plain_openTree {flags : UInt32} (hdir : w.table dir = some (.dir place)) (hP : P w)
    (hQ : ∀ mnt, w.Fresh mnt → Q (w.give mnt
      (.tree { source := .copy (.under place path) (flags &&& AT_RECURSIVE != 0) })) mnt) :
    Plain (toward fits) P Q w (openTree (.fd dir) path flags) := by
  refine plain_open (.openTree (.fd dir) path flags) (f := id) ⟨_, hdir⟩ rfl hP hQ
    (fun _ => rfl) fun mnt => ?_
  show w.give mnt (.tree { source := .copy (.under (w.dir dir) path) _ }) = _
  rw [World.dir_of hdir]

theorem plain_openatDir (hdir : w.table dir = some (.dir place)) (hP : P w)
    (hQ : ∀ fd, w.Fresh fd → Q (w.give fd (.dir (.under place path))) fd) :
    Plain (toward fits) P Q w (openatDir (.fd dir) path) := by
  refine plain_open (.openatDir (.fd dir) path) (f := id) ⟨_, hdir⟩ rfl hP hQ
    (fun _ => rfl) fun mnt => ?_
  show w.give mnt (.dir (.under (w.dir dir) path)) = _
  rw [World.dir_of hdir]

theorem plain_openatDir_host (hP : P w)
    (hQ : ∀ fd, w.Fresh fd → Q (w.give fd (.dir (.host path))) fd) :
    Plain (toward fits) P Q w (openatDir .cwd path) :=
  plain_open (.openatDir .cwd path) (f := id) trivial rfl hP hQ

end Open

end Plain

/-! ## Scopes -/

section Scoped

open Program.Owned (holding lift)

variable {α : Type} {fits : List Change → Prop} {rest : List Change} {Q : World → α → Prop}
  {w : World}

section Mounts

variable {P : World → Prop} {dir : CInt} {path : PathText} {place : Place} {fsName : String}
  {options : List (String × Option String)} {attrFlags : UInt64}
  {configure : CInt → Mount.Step Unit} {attrs : List (MountAttr × UInt32)}

theorem scoped_mountNew {attach : CInt → Mount.Step α} (hconfigure : Adds configure options)
    (hP : P w)
    (hattach : ∀ fs mnt object, w.Fresh fs → (w.give fs object).Fresh mnt →
      Plain (toward fits) (Closing mnt (Closing fs P))
        (fun w' a => Closing mnt (Closing fs (Q · a)) w')
        ((w.give fs object).give mnt (.tree { source := .fresh fsName options attrFlags }))
        (attach mnt)) :
    Scoped (toward fits) (fun w' _ => P w') Q w
      (Owned.mountNew fsName configure attrFlags attach) := by
  refine scoped_holding (scoped_lift (plain_fsopen hP fun fs hfs => ⟨hfs.1, ?_⟩))
  refine Scoped.bind (scoped_lift
    (Q := fun w' _ => w' = w.give fs (.context fsName options true)) ?_) ?_
  · refine Plain.bind (Q := fun w' _ => w' = w.give fs (.context fsName options false))
      (hconfigure fits _ _ w fs fsName [] (fun _ => closing_give hfs hP) rfl) ?_
    rintro _ ⟨⟩ rfl
    refine plain_silent (.fsconfigCreate fs) (f := id) ⟨_, _, Machine.give_self⟩ rfl
      (closing_give hfs hP) ?_
    exact Machine.modify_give
  · rintro _ ⟨⟩ rfl
    refine scoped_holding (scoped_lift
      (plain_fsmount Machine.give_self (closing_give hfs hP) fun mnt hmnt => ⟨hmnt.1, ?_⟩))
    exact scoped_lift (hattach fs mnt _ hfs hmnt)

/-- A new filesystem is configured and mounted as the plan says. -/
theorem scoped_mountOn {Q : World → Unit → Prop} {attach : CInt → Mount.Step Unit}
    (hconfigure : Adds configure options) (hattach : Attaches attach dir path attrs)
    (hdir : w.table dir = some (.dir place))
    (hahead : Ahead fits
      (.attach (.under place path) ⟨.fresh fsName options attrFlags, attrs⟩ :: rest) w)
    (hP : P w)
    (hQ : Q (w.record (.attach (.under place path) ⟨.fresh fsName options attrFlags, attrs⟩)) ()) :
    Scoped (toward fits) (fun w' _ => P w') Q w
      (Owned.mountNew fsName configure attrFlags attach) := by
  refine scoped_mountNew hconfigure hP fun fs mnt object hfs hmnt => ?_
  refine hattach fits rest _ _ _ mnt _ place hmnt (Machine.give_of_open hfs hdir) hahead
    (fun _ => closing_give hmnt (closing_give hfs hP)) fun object' => ?_
  have hfs' : (w.record (.attach (.under place path)
    ⟨.fresh fsName options attrFlags, attrs⟩)).Fresh fs := hfs
  exact closing_give hmnt (closing_give (P := (Q · ())) hfs' hQ)

/-- A copy is attached as the plan says. -/
theorem scoped_copyOn {Q : World → Unit → Prop} {x : Mount.Step CInt}
    {attach : CInt → Mount.Step Unit} {source : Source} (hattach : Attaches attach dir path attrs)
    (hx : ∀ Q : World → CInt → Prop,
      (∀ mnt, w.Fresh mnt → Q (w.give mnt (.tree { source := source })) mnt) →
      Plain (toward fits) P Q w x)
    (hdir : w.table dir = some (.dir place))
    (hahead : Ahead fits (.attach (.under place path) ⟨source, attrs⟩ :: rest) w) (hP : P w)
    (hQ : Q (w.record (.attach (.under place path) ⟨source, attrs⟩)) ()) :
    Scoped (toward fits) (fun w' _ => P w') Q w
      (holding (lift x) fun mnt => lift (attach mnt)) := by
  refine scoped_holding (scoped_lift (hx _ fun mnt hmnt => ⟨hmnt.1, scoped_lift ?_⟩))
  exact hattach fits rest _ _ w mnt source place hmnt hdir hahead (fun _ => closing_give hmnt hP)
    fun _ => closing_give hmnt hQ

end Mounts

end Scoped

/-! ## How far a step comes -/

/-- A part of the changes that is not all of them. -/
def Part (changes part : List Change) : Prop := ∃ rest, rest ≠ [] ∧ changes = part ++ rest

/-- The descriptors are those from before. Of the trees that are lent, the attributes may be
others. -/
structure Kept (lent : List CInt) (w w' : World) : Prop where
  same : ∀ n, n ∉ lent → w'.table n = w.table n
  trees : ∀ n ∈ lent, w.IsTree n → w'.IsTree n

def Partly (lent : List CInt) (changes : List Change) (w w' : World) : Prop :=
  Kept lent w w' ∧ ∃ part, Part changes part ∧ w'.state = w.state ++ part

def Wholly (lent : List CInt) (changes : List Change) (w w' : World) : Prop :=
  Kept lent w w' ∧ w'.state = w.state ++ changes

section Progress

variable {lent lent' : List CInt} {changes changes' : List Change} {change : Change}
  {w w' w'' : World} {fd : CInt}

theorem Kept.refl (lent : List CInt) (w : World) : Kept lent w w :=
  ⟨fun _ _ => rfl, fun _ _ h => h⟩

theorem Kept.trans (h : Kept lent w w') (h' : Kept lent w' w'') : Kept lent w w'' :=
  ⟨fun n hn => (h'.same n hn).trans (h.same n hn), fun n hn ht => h'.trees n hn (h.trees n hn ht)⟩

theorem Kept.mono (h : Kept lent w w') (hsub : ∀ n ∈ lent, n ∈ lent') : Kept lent' w w' := by
  refine ⟨fun n hn => h.same n fun hmem => hn (hsub n hmem), fun n _ ht => ?_⟩
  by_cases hmem : n ∈ lent
  · exact h.trees n hmem ht
  · obtain ⟨t, ht⟩ := ht
    exact ⟨t, (h.same n hmem).trans ht⟩

theorem kept_modify (attrs : List (MountAttr × UInt32)) :
    Kept [fd] w (w.modify fd (.mark attrs)) := by
  refine ⟨fun n hn => ?_, fun n hn ht => ?_⟩
  · exact Function.update_of_ne (fun heq => hn (List.mem_singleton.2 heq)) _ _
  · obtain rfl := List.mem_singleton.1 hn
    obtain ⟨t, ht⟩ := ht
    refine ⟨⟨t.source, t.attrs ++ attrs⟩, ?_⟩
    simp [Machine.modify, ht, Object.mark]

theorem partly_start (hne : changes ≠ []) : Partly lent changes w w :=
  ⟨.refl lent w, [], ⟨changes, hne, rfl⟩, (List.append_nil _).symm⟩

theorem Wholly.single : Wholly lent [change] w (w.record change) :=
  ⟨⟨fun _ _ => rfl, fun _ _ h => h⟩, rfl⟩

theorem Wholly.append (h : Wholly lent changes w w') (h' : Wholly lent changes' w' w'') :
    Wholly lent (changes ++ changes') w w'' :=
  ⟨h.1.trans h'.1, by rw [h'.2, h.2, List.append_assoc]⟩

theorem Wholly.partly (h : Wholly lent changes w w') (h' : Partly lent changes' w' w'') :
    Partly lent (changes ++ changes') w w'' := by
  obtain ⟨hkept, part, ⟨rest, hne, rfl⟩, hlog⟩ := h'
  refine ⟨h.1.trans hkept, changes ++ part, ⟨rest, hne, (List.append_assoc _ _ _).symm⟩, ?_⟩
  rw [hlog, h.2, List.append_assoc]

theorem Partly.append (h : Partly lent changes w w') : Partly lent (changes ++ changes') w w' := by
  obtain ⟨hkept, part, ⟨rest, hne, rfl⟩, hlog⟩ := h
  refine ⟨hkept, part, ⟨rest ++ changes', ?_, List.append_assoc _ _ _⟩, hlog⟩
  exact List.append_ne_nil_of_left_ne_nil hne _

theorem Wholly.ahead {fits : List Change → Prop} {rest : List Change} (h : Wholly lent changes w w')
    (hahead : Ahead fits (changes ++ rest) w) : Ahead fits rest w' := by
  intro part hpart
  rw [h.2, List.append_assoc]
  exact hahead _ ((List.prefix_append_right_inj changes).2 hpart)

theorem Wholly.open_of {n : CInt} {object : Object} (h : Wholly lent changes w w') (hn : n ∉ lent)
    (hopen : w.table n = some object) : w'.table n = some object :=
  (h.1.same n hn).trans hopen

end Progress

/-! ## The entries -/

section Entries

open Program.Owned (lift)

variable {fits : List Change → Prop} {rest : List Change} {w : World} {root staging : CInt}
  {count : ℕ}

theorem scoped_makes {α : Type} {P : World → Prop} {Q : World → α → Prop} {dir : CInt}
    {place : Place} {x : Mount.Step Unit} {y : Owned.Step α}
    (hx : Always (Makes dir) (x : Prog Op Op.Out (Except Errno Unit)))
    (hdir : w.table dir = some (.dir place)) (hP : P w)
    (hy : Scoped (toward fits) (fun w' _ => P w') Q w y) :
    Scoped (toward fits) (fun w' _ => P w') Q w (lift x >>= fun _ => y) := by
  refine Scoped.bind (scoped_lift
    (plain_makes (Q := fun w' _ => w' = w) hx ⟨place, hdir⟩ hP fun _ => rfl)) ?_
  rintro _ ⟨⟩ rfl
  exact hy

/-- What an entry does. -/
def EntryDone (w : World) (count : ℕ) (entry : MountEntry) (x : Owned.Step Unit)
    (fits : List Change → Prop) : Prop :=
  Scoped (toward fits) (fun w' _ => Partly (lentBy entry) (entryChanges count entry) w w')
    (fun w' _ => Wholly (lentBy entry) (entryChanges count entry) w w') w x

theorem done_bind_path {path dstRel : String} {srcIsDir readOnly : Bool}
    (hroot : w.table root = some (.dir rootPlace))
    (hahead : Ahead fits
      (entryChanges count (.bind (.path path) dstRel srcIsDir readOnly) ++ rest) w) :
    EntryDone w count (.bind (.path path) dstRel srcIsDir readOnly)
      (Owned.processBindMount (.path path) dstRel.toList srcIsDir readOnly root) fits := by
  have hstart : Partly (lentBy (.bind (.path path) dstRel srcIsDir readOnly))
      (entryChanges count (.bind (.path path) dstRel srcIsDir readOnly)) w w :=
    partly_start (by simp [entryChanges])
  refine scoped_makes makes_ensureMountPoint hroot hstart ?_
  refine scoped_copyOn attaches_readOnly (fun Q hQ => ?_) hroot hahead hstart .single
  exact plain_openTree_host hstart hQ

theorem done_tmpfs {dstRel : String} {readOnly : Bool} {sizeBytes : Option UInt64}
    {mode : Option UInt32} (hroot : w.table root = some (.dir rootPlace))
    (hahead : Ahead fits
      (entryChanges count (.tmpfs dstRel readOnly sizeBytes mode) ++ rest) w) :
    EntryDone w count (.tmpfs dstRel readOnly sizeBytes mode)
      (Owned.processTmpfsMount dstRel.toList readOnly sizeBytes mode root) fits := by
  have hstart : Partly (lentBy (.tmpfs dstRel readOnly sizeBytes mode))
      (entryChanges count (.tmpfs dstRel readOnly sizeBytes mode)) w w :=
    partly_start (by simp [entryChanges])
  refine scoped_makes makes_mkdiratAll hroot hstart ?_
  exact scoped_mountOn ((adds_option _ _).append (adds_option _ _)) attaches_readOnly hroot hahead
    hstart .single

theorem done_proc {dstRel : String} {subset : Option ProcSubset} {hidepid : Option HidePid}
    (hroot : w.table root = some (.dir rootPlace))
    (hahead : Ahead fits (entryChanges count (.proc dstRel subset hidepid) ++ rest) w) :
    EntryDone w count (.proc dstRel subset hidepid)
      (Owned.processProcMount dstRel.toList subset hidepid root) fits := by
  have hstart : Partly (lentBy (.proc dstRel subset hidepid))
      (entryChanges count (.proc dstRel subset hidepid)) w w :=
    partly_start (by simp [entryChanges])
  refine scoped_makes makes_mkdiratAll hroot hstart ?_
  exact scoped_mountOn ((adds_option _ _).append (adds_option _ _)) attaches_move hroot hahead
    hstart .single

theorem done_mqueue {dstRel : String} (hroot : w.table root = some (.dir rootPlace))
    (hahead : Ahead fits (entryChanges count (.mqueue dstRel) ++ rest) w) :
    EntryDone w count (.mqueue dstRel) (Owned.processMqueueMount dstRel.toList root) fits := by
  have hstart : Partly (lentBy (.mqueue dstRel)) (entryChanges count (.mqueue dstRel)) w w :=
    partly_start (by simp [entryChanges])
  refine scoped_makes makes_mkdiratAll hroot hstart ?_
  exact scoped_mountOn adds_nil attaches_move hroot hahead hstart .single

theorem done_file {dstRel : String} {content : List UInt8} {readOnly : Bool}
    (hroot : w.table root = some (.dir rootPlace))
    (hstaging : w.table staging = some (.dir stagingPlace))
    (hahead : Ahead fits (entryChanges count (.file dstRel content readOnly) ++ rest) w) :
    EntryDone w count (.file dstRel content readOnly)
      (Owned.processFileMount dstRel.toList content readOnly root staging count) fits := by
  have hstart : Partly (lentBy (.file dstRel content readOnly))
      (entryChanges count (.file dstRel content readOnly)) w w :=
    partly_start (by simp [entryChanges])
  let wrote : World := w.record (.write (.under stagingPlace (stagingName count)) content)
  have hwrote : Wholly (lentBy (.file dstRel content readOnly))
      [.write (.under stagingPlace (stagingName count)) content] w wrote := .single
  have hpart : Partly (lentBy (.file dstRel content readOnly))
      (entryChanges count (.file dstRel content readOnly)) w wrote :=
    hwrote.partly (partly_start (List.cons_ne_nil _ _))
  refine Scoped.bind (scoped_lift (Q := fun w' _ => w' = wrote) ?_) ?_
  · refine Plain.bind (Q := fun w' _ => w' = wrote) ?_ ?_
    · refine plain_change (.writeFileAt (.fd staging) (stagingName count) content) (f := id)
        ⟨_, hstaging⟩ ?_ hahead hstart rfl
      simp [World.change, World.place, World.dir_of hstaging]
    · rintro _ ⟨⟩ rfl
      exact plain_makes (always_except_bind.2 ⟨makes_ensureParentDirs,
        fun _ _ => makes_createFileAt⟩) ⟨_, hroot⟩ hpart fun _ => rfl
  · rintro _ ⟨⟩ rfl
    refine scoped_copyOn attaches_readOnly (fun Q hQ => ?_) hroot (hwrote.ahead hahead) hpart
      (hwrote.append .single)
    exact plain_openTree hstaging hpart hQ

/-- What is set on a tree that is lent. -/
def lentAttrs (readOnly recursive : Bool) : List (MountAttr × UInt32) :=
  ({ propagation := MS_PRIVATE }, AT_EMPTY_PATH ||| AT_RECURSIVE) ::
    readOnlyAttrs readOnly recursive

theorem plain_lend {P : World → Prop} {Q : World → Unit → Prop} {fd : CInt} {path : PathText}
    {place : Place} {t : Tree} {readOnly recursive : Bool} (htree : w.table fd = some (.tree t))
    (hroot : w.table root = some (.dir place))
    (hahead : Ahead fits (.attach (.under place path)
      ⟨t.source, t.attrs ++ lentAttrs readOnly recursive⟩ :: rest) w)
    (hP : ∀ w', Kept [fd] w w' → w'.state = w.state → P w')
    (hQ : Q (World.record (w.modify fd (.mark (lentAttrs readOnly recursive))) (.attach
      (.under place path) ⟨t.source, t.attrs ++ lentAttrs readOnly recursive⟩)) ()) :
    Plain (toward fits) P Q w (do
      mountSetattr (.fd fd) EMPTY_PATH (AT_EMPTY_PATH ||| AT_RECURSIVE)
        { propagation := MS_PRIVATE }
      whenever readOnly (setReadOnly fd recursive)
      moveMountToFd fd root path) := by
  have hne : root ∉ [fd] := by
    intro hmem
    obtain rfl := List.mem_singleton.1 hmem
    cases hroot.symm.trans htree
  refine Plain.bind (Q := fun w' _ => w' = w.modify fd
    (.mark [({ propagation := MS_PRIVATE }, AT_EMPTY_PATH ||| AT_RECURSIVE)])) ?_ ?_
  · exact plain_silent (.mountSetattr (.fd fd) EMPTY_PATH _ _) (f := id) ⟨_, htree⟩ rfl
      (hP w (.refl _ w) rfl) rfl
  rintro _ ⟨⟩ rfl
  refine Plain.bind (Q := fun w' _ => w' = w.modify fd (.mark (lentAttrs readOnly recursive))) ?_ ?_
  · exact plain_readOnly (Machine.modify_self htree) (hP _ (kept_modify _) rfl)
      (World.mark_mark _ _)
  rintro _ ⟨⟩ rfl
  exact plain_moveMount (Machine.modify_self htree)
    (((kept_modify _).same root hne).trans hroot) hahead (hP _ (kept_modify _) rfl) hQ

/-- The tree that is lent is copied where it is attached, and detached. -/
theorem scoped_copyBack {fd : CInt} {path : PathText} {readOnly recursive : Bool}
    {changes : List Change}
    (hchanges : changes = [.detach (NEW_ROOT_ABS ++ '/' :: path) MNT_DETACH,
      .attach (.under rootPlace path)
        ⟨.copy (.under rootPlace path) true, readOnlyAttrs readOnly recursive⟩])
    (hroot : w.table root = some (.dir rootPlace)) (hahead : Ahead fits (changes ++ rest) w) :
    Scoped (toward fits) (fun w' _ => Partly [fd] changes w w')
      (fun w' _ => Wholly [fd] changes w w') w
      (Owned.holding (lift (openTree (.fd root) path
          (OPEN_TREE_CLONE ||| OPEN_TREE_CLOEXEC ||| AT_RECURSIVE))) fun owned =>
        lift do
          let absolute ← rootAbsolutePath path
          (Prog.perform (Op.umount2 absolute MNT_DETACH) : Step Unit)
          Owned.attachBind path recursive readOnly root owned) := by
  subst hchanges
  have hdetach : Wholly [fd] [.detach (NEW_ROOT_ABS ++ '/' :: path) MNT_DETACH] w
      (w.record (.detach (NEW_ROOT_ABS ++ '/' :: path) MNT_DETACH)) := .single
  have hstart : Partly [fd] [.detach (NEW_ROOT_ABS ++ '/' :: path) MNT_DETACH,
      .attach (.under rootPlace path)
        ⟨.copy (.under rootPlace path) true, readOnlyAttrs readOnly recursive⟩] w w :=
    partly_start (List.cons_ne_nil _ _)
  refine scoped_holding (scoped_lift
    (plain_openTree hroot hstart fun mnt hmnt => ⟨hmnt.1, scoped_lift ?_⟩))
  have hmnt' : (w.record (.detach (NEW_ROOT_ABS ++ '/' :: path) MNT_DETACH)).Fresh mnt := hmnt
  refine Plain.bind (Q := fun w' absolute => absolute = NEW_ROOT_ABS ++ '/' :: path ∧
    w' = w.give mnt (.tree { source := .copy (.under rootPlace path) true })) ?_ ?_
  · unfold rootAbsolutePath
    split_ifs
    · exact plain_throw (closing_give hmnt hstart)
    · exact plain_pure ⟨rfl, rfl⟩
  rintro _ absolute ⟨rfl, rfl⟩
  refine Plain.bind (Q := fun w' _ => w' =
    (w.record (.detach (NEW_ROOT_ABS ++ '/' :: path) MNT_DETACH)).give mnt
      (.tree { source := .copy (.under rootPlace path) true })) ?_ ?_
  · exact plain_change (.umount2 (NEW_ROOT_ABS ++ '/' :: path) MNT_DETACH) (f := id) trivial rfl
      hahead (closing_give hmnt hstart) rfl
  rintro _ ⟨⟩ rfl
  refine attaches_readOnly fits rest _ _ _ mnt _ rootPlace hmnt' hroot (hdetach.ahead hahead)
    (fun _ => closing_give hmnt' (hdetach.partly (partly_start (List.cons_ne_nil _ _)))) fun _ => ?_
  exact closing_give hmnt' (hdetach.append .single)

/-- What becomes of a tree that is lent: it is attached for a while, and a copy of it stays. -/
def lendChanges (t : Tree) (path : PathText) (srcIsDir readOnly : Bool) : List Change :=
  [.attach (.under rootPlace path) ⟨t.source, t.attrs ++ lentAttrs readOnly srcIsDir⟩,
    .detach (NEW_ROOT_ABS ++ '/' :: path) MNT_DETACH,
    .attach (.under rootPlace path)
      ⟨.copy (.under rootPlace path) true, readOnlyAttrs readOnly srcIsDir⟩]

theorem scoped_bind_prepared {fd : CInt} {path : PathText} {t : Tree} {srcIsDir readOnly : Bool}
    (hroot : w.table root = some (.dir rootPlace)) (htree : w.table fd = some (.tree t))
    (hahead : Ahead fits (lendChanges t path srcIsDir readOnly ++ rest) w) :
    Scoped (toward fits)
      (fun w' _ => Partly [fd] (lendChanges t path srcIsDir readOnly) w w')
      (fun w' _ => Wholly [fd] (lendChanges t path srcIsDir readOnly) w w') w
      (Owned.processBindMount (.prepared fd) path srcIsDir readOnly root) := by
  have hstart : ∀ w', Kept [fd] w w' → w'.state = w.state →
      Partly [fd] (lendChanges t path srcIsDir readOnly) w w' :=
    fun w' hkept hlog => ⟨hkept, [], ⟨_, List.cons_ne_nil _ _, rfl⟩, by simp [hlog]⟩
  refine scoped_makes makes_ensureMountPoint hroot (hstart w (.refl _ w) rfl) ?_
  obtain ⟨attach, hattach⟩ : ∃ attach : Change, attach = .attach (.under rootPlace path)
    ⟨t.source, t.attrs ++ lentAttrs readOnly srcIsDir⟩ := ⟨_, rfl⟩
  obtain ⟨w₁, hw₁⟩ : ∃ w₁, w₁ =
    World.record (w.modify fd (.mark (lentAttrs readOnly srcIsDir))) attach := ⟨_, rfl⟩
  have hlend : Wholly [fd] [attach] w w₁ :=
    hw₁ ▸ ⟨⟨(kept_modify _).same, (kept_modify _).trees⟩, rfl⟩
  unfold lendChanges at hahead hstart ⊢
  rw [← hattach] at hahead hstart ⊢
  refine Scoped.bind (scoped_lift (Q := fun w' _ => w' = w₁)
    (plain_lend htree hroot (hattach ▸ hahead) hstart (hattach ▸ hw₁.symm))) ?_
  rintro _ ⟨⟩ rfl
  have hne : root ∉ [fd] := by
    intro hmem
    obtain rfl := List.mem_singleton.1 hmem
    cases hroot.symm.trans htree
  exact (scoped_copyBack rfl (hlend.open_of hne hroot) (hlend.ahead hahead)).mono
    (fun _ _ h => hlend.partly h) fun _ _ h => hlend.append h

/-- The descriptors that are lent are trees. -/
def Trees (lent : List CInt) (w : World) : Prop := ∀ fd ∈ lent, w.IsTree fd

/-- They are trees that nothing has been set on yet. -/
def Lent (lent : List CInt) (w : World) : Prop :=
  ∀ fd ∈ lent, w.table fd = some (.tree { source := .prepared fd })

section Lent

variable {lent lent' : List CInt} {w' : World} {n : CInt} {place : Place}

theorem Lent.trees (h : Lent lent w) : Trees lent w := fun fd hfd => ⟨_, h fd hfd⟩

theorem Trees.kept (h : Trees lent w) (hkept : Kept lent' w w') : Trees lent w' := by
  intro fd hfd
  by_cases hmem : fd ∈ lent'
  · exact hkept.trees fd hmem (h fd hfd)
  · obtain ⟨t, ht⟩ := h fd hfd
    exact ⟨t, (hkept.same fd hmem).trans ht⟩

theorem Trees.notMem (h : Trees lent w) (hdir : w.table n = some (.dir place)) : n ∉ lent := by
  intro hmem
  obtain ⟨t, ht⟩ := h n hmem
  cases hdir.symm.trans ht

theorem Trees.notMem_fresh (h : Trees lent w) (hn : w.Fresh n) : n ∉ lent := by
  intro hmem
  obtain ⟨t, ht⟩ := h n hmem
  cases hn.2.symm.trans ht

/-- What was open is still open, and as it was. -/
def Beside (w w' : World) : Prop := ∀ n object, w.table n = some object → w'.table n = some object

theorem Beside.trans {w'' : World} (h : Beside w w') (h' : Beside w' w'') : Beside w w'' :=
  fun n object hopen => h' n object (h n object hopen)

theorem beside_give {object : Object} (hfresh : w.Fresh n) : Beside w (w.give n object) :=
  fun _ _ hopen => Machine.give_of_open hfresh hopen

theorem Kept.beside (h : Kept [] w w') : Beside w w' :=
  fun n _ hopen => (h.same n List.not_mem_nil).trans hopen

theorem Lent.beside (h : Lent lent w) (hbeside : Beside w w') : Lent lent w' :=
  fun fd hfd => hbeside fd _ (h fd hfd)

theorem Trees.beside (h : Trees lent w) (hbeside : Beside w w') : Trees lent w' := by
  intro fd hfd
  obtain ⟨t, ht⟩ := h fd hfd
  exact ⟨t, hbeside fd _ ht⟩

end Lent

theorem scoped_entry {entry : MountEntry} (hroot : w.table root = some (.dir rootPlace))
    (hstaging : w.table staging = some (.dir stagingPlace))
    (hlent : Lent (lentBy entry) w) (hahead : Ahead fits (entryChanges count entry ++ rest) w) :
    Scoped (toward fits) (fun w' _ => Partly (lentBy entry) (entryChanges count entry) w w')
      (fun w' n => n = countWith count entry ∧
        Wholly (lentBy entry) (entryChanges count entry) w w') w
      (Owned.processMountEntry root staging count entry) := by
  cases entry with
  | bind source dstRel srcIsDir readOnly =>
    cases source with
    | path path => exact (done_bind_path hroot hahead).bind fun _ _ h => ⟨rfl, h⟩
    | prepared fd =>
      exact (scoped_bind_prepared hroot (hlent fd (List.mem_singleton_self fd)) hahead).bind
        fun _ _ h => ⟨rfl, h⟩
  | tmpfs dstRel readOnly sizeBytes mode =>
    exact (done_tmpfs hroot hahead).bind fun _ _ h => ⟨rfl, h⟩
  | proc dstRel subset hidepid => exact (done_proc hroot hahead).bind fun _ _ h => ⟨rfl, h⟩
  | mqueue dstRel => exact (done_mqueue hroot hahead).bind fun _ _ h => ⟨rfl, h⟩
  | file dstRel content readOnly =>
    exact (done_file hroot hstaging hahead).bind fun _ _ h => ⟨rfl, h⟩

theorem scoped_withDetail {α : Type} {P : World → Prop} {Q : World → α → Prop} {detail : CInt}
    {x : Owned.Step α} (h : Scoped (toward fits) (fun w _ => P w) Q w x) :
    Scoped (toward fits) (fun w e => e.detail = detail ∧ P w) Q w (Owned.withDetail detail x) :=
  scoped_mapError (h.mono (fun _ _ hP => ⟨rfl, hP⟩) fun _ _ hQ => hQ)

/-- The stage stops in an entry: the detail is its index, and those before it are done. -/
def StopsIn (idx count : ℕ) (entries : List MountEntry) (detail : CInt) (made : List Change) :
    Prop :=
  ∃ before entry after part, entries = before ++ entry :: after ∧
    detail = 1000 + Int32.ofNat (idx + before.length) ∧
    Part (entryChanges (countAll count before) entry) part ∧
    made = entriesChanges count before ++ part

theorem StopsIn.cons {idx : ℕ} {entry : MountEntry} {entries : List MountEntry} {detail : CInt}
    {made : List Change} (h : StopsIn (idx + 1) (countWith count entry) entries detail made) :
    StopsIn idx count (entry :: entries) detail (entryChanges count entry ++ made) := by
  obtain ⟨before, entry', after, part, rfl, rfl, hpart, rfl⟩ := h
  refine ⟨entry :: before, entry', after, part, rfl, ?_, hpart, ?_⟩
  · rw [List.length_cons, Nat.add_right_comm, Nat.add_assoc]
  · simp [entriesChanges]

theorem scoped_entries : ∀ {entries : List MountEntry} {idx count : ℕ} {w : World},
    w.table root = some (.dir rootPlace) → w.table staging = some (.dir stagingPlace) →
    Lent (entries.flatMap lentBy) w → (entries.flatMap lentBy).Nodup →
    Ahead fits (entriesChanges count entries ++ rest) w → Scoped (toward fits)
      (fun w' e => Kept (entries.flatMap lentBy) w w' ∧
        ∃ made, StopsIn idx count entries e.detail made ∧ w'.state = w.state ++ made)
      (fun w' n => n = countAll count entries ∧
        Wholly (entries.flatMap lentBy) (entriesChanges count entries) w w') w
      (Owned.processEntries root staging idx count entries)
  | [], _, _, w, _, _, _, _, _ => ⟨rfl, .refl _ w, (List.append_nil _).symm⟩
  | entry :: entries, idx, count, w, hroot, hstaging, hlent, hnodup, hahead => by
    rw [List.flatMap_cons] at hlent hnodup ⊢
    obtain ⟨-, hnodup', hdisjoint⟩ := List.nodup_append.1 hnodup
    have hlent₁ : Lent (lentBy entry) w := fun fd h => hlent fd (List.mem_append_left _ h)
    have hahead₁ : Ahead fits (entryChanges count entry ++
        (entriesChanges (countWith count entry) entries ++ rest)) w := by
      rwa [entriesChanges, List.append_assoc] at hahead
    have hentry := scoped_entry hroot hstaging hlent₁ hahead₁
    refine Scoped.bind ((scoped_withDetail hentry).mono ?_ fun _ _ h => h) ?_
    · rintro w' e ⟨hdetail, hkept, part, hpart, hlog⟩
      refine ⟨hkept.mono fun n hn => List.mem_append_left _ hn, part, ?_, hlog⟩
      exact ⟨[], entry, entries, part, rfl, hdetail, hpart, rfl⟩
    · rintro w₁ n ⟨rfl, hdone⟩
      have hlent₂ : Lent (entries.flatMap lentBy) w₁ := fun fd h =>
        (hdone.1.same fd fun h' => hdisjoint fd h' fd h rfl).trans
          (hlent fd (List.mem_append_right _ h))
      have hkept : Kept (lentBy entry ++ entries.flatMap lentBy) w w₁ :=
        hdone.1.mono fun n hn => List.mem_append_left _ hn
      refine (scoped_entries (hdone.open_of (hlent₁.trees.notMem hroot) hroot)
        (hdone.open_of (hlent₁.trees.notMem hstaging) hstaging) hlent₂ hnodup'
        (hdone.ahead hahead₁)).mono ?_ ?_
      · rintro w' e ⟨hkept', made, hstops, hlog⟩
        refine ⟨hkept.trans (hkept'.mono fun n hn => List.mem_append_right _ hn), _,
          hstops.cons, ?_⟩
        rw [hlog, hdone.2, List.append_assoc]
      · rintro w' n ⟨rfl, hkept', hlog⟩
        refine ⟨rfl, hkept.trans (hkept'.mono fun n hn => List.mem_append_right _ hn), ?_⟩
        rw [hlog, hdone.2, entriesChanges, List.append_assoc]

/-! A tree may be lent to several entries. All but the first of them find it with what the first has
set on it, so that their changes are others; their calls and their descriptors are the same. -/

theorem kept_entry {entry : MountEntry} (hroot : w.table root = some (.dir rootPlace))
    (hstaging : w.table staging = some (.dir stagingPlace)) (htrees : Trees (lentBy entry) w) :
    Scoped (toward fun _ => True) (fun w' _ => Kept (lentBy entry) w w')
      (fun w' _ => Kept (lentBy entry) w w') w
      (Owned.processMountEntry root staging count entry) := by
  have hahead : ∀ changes, Ahead (fun _ => True) (changes ++ []) w := fun _ _ _ => trivial
  have hother (hnone : lentBy entry = []) : Scoped (toward fun _ => True)
      (fun w' _ => Kept (lentBy entry) w w') (fun w' _ => Kept (lentBy entry) w w') w
      (Owned.processMountEntry root staging count entry) := by
    have hlent : Lent (lentBy entry) w := fun fd hfd => absurd (hnone ▸ hfd) List.not_mem_nil
    exact (scoped_entry hroot hstaging hlent (hahead _)).mono (fun _ _ h => h.1) fun _ _ h => h.2.1
  cases entry with
  | bind source dstRel srcIsDir readOnly =>
    cases source with
    | path path => exact hother rfl
    | prepared fd =>
      obtain ⟨t, ht⟩ := htrees fd (List.mem_singleton_self fd)
      exact ((scoped_bind_prepared hroot ht (hahead _)).mono (fun _ _ h => h.1)
        fun _ _ h => h.1).bind fun _ _ h => h
  | tmpfs dstRel readOnly sizeBytes mode => exact hother rfl
  | proc dstRel subset hidepid => exact hother rfl
  | mqueue dstRel => exact hother rfl
  | file dstRel content readOnly => exact hother rfl

theorem kept_entries : ∀ {entries : List MountEntry} {idx count : ℕ} {w : World},
    w.table root = some (.dir rootPlace) → w.table staging = some (.dir stagingPlace) →
    Trees (entries.flatMap lentBy) w → Scoped (toward fun _ => True)
      (fun w' _ => Kept (entries.flatMap lentBy) w w')
      (fun w' _ => Kept (entries.flatMap lentBy) w w') w
      (Owned.processEntries root staging idx count entries)
  | [], _, _, w, _, _, _ => .refl _ w
  | entry :: entries, idx, count, w, hroot, hstaging, htrees => by
    rw [List.flatMap_cons] at htrees ⊢
    have htrees₁ : Trees (lentBy entry) w := fun fd h => htrees fd (List.mem_append_left _ h)
    have hentry : Scoped (toward fun _ => True) (fun w' _ => Kept (lentBy entry) w w')
        (fun w' _ => Kept (lentBy entry) w w') w
        (Owned.processMountEntry root staging count entry) :=
      kept_entry hroot hstaging htrees₁
    have hkept : ∀ {w'}, Kept (lentBy entry) w w' →
        Kept (lentBy entry ++ entries.flatMap lentBy) w w' :=
      fun h => h.mono fun n hn => List.mem_append_left _ hn
    refine Scoped.bind ((scoped_withDetail hentry).mono (fun _ _ h => hkept h.2) fun _ _ h => h) ?_
    intro w₁ n hdone
    have hroot₁ := (hdone.same root (htrees₁.notMem hroot)).trans hroot
    have hstaging₁ := (hdone.same staging (htrees₁.notMem hstaging)).trans hstaging
    have htrees₂ : Trees (entries.flatMap lentBy) w₁ :=
      Trees.kept (fun fd h => htrees fd (List.mem_append_right _ h)) hdone
    have hrest : ∀ {w'}, Kept (entries.flatMap lentBy) w₁ w' →
        Kept (lentBy entry ++ entries.flatMap lentBy) w w' :=
      fun h => (hkept hdone).trans (h.mono fun n hn => List.mem_append_right _ hn)
    exact (kept_entries hroot₁ hstaging₁ htrees₂).mono (fun _ _ h => hrest h) fun _ _ h => hrest h

end Entries

/-! ## Steps in a row -/

section Rows

open Program.Owned (holding lift)

variable {α ε : Type} {fits : List Change → Prop} {rest c c' : List Change} {change : Change}
  {lent : List CInt} {w w₁ w' : World} {fd root staging : CInt} {object : Object} {place : Place}

theorem plain_seq {x y : Mount.Step Unit}
    (hx : Plain (toward fits) (Partly lent c w) (fun w' _ => Wholly lent c w w') w x)
    (hy : ∀ w', Wholly lent c w w' →
      Plain (toward fits) (Partly lent c' w') (fun w'' _ => Wholly lent c' w' w'') w' y) :
    Plain (toward fits) (Partly lent (c ++ c') w)
      (fun w' _ => Wholly lent (c ++ c') w w') w (x >>= fun _ => y) := by
  refine Plain.bind (Q := fun w' _ => Wholly lent c w w') ?_ ?_
  · refine Obeys.mono hx ?_
    rintro w' (e | ⟨⟩) h
    · exact Partly.append h
    · exact h
  · rintro w' ⟨⟩ hdone
    refine Obeys.mono (hy w' hdone) ?_
    rintro w'' (e | ⟨⟩) h
    · exact hdone.partly h
    · exact hdone.append h

theorem scoped_seq {x y : Owned.Step Unit}
    (hx : Scoped (toward fits) (fun w' _ => Partly lent c w w')
      (fun w' _ => Wholly lent c w w') w x)
    (hy : ∀ w', Wholly lent c w w' → Scoped (toward fits) (fun w'' _ => Partly lent c' w' w'')
      (fun w'' _ => Wholly lent c' w' w'') w' y) :
    Scoped (toward fits) (fun w' _ => Partly lent (c ++ c') w w')
      (fun w' _ => Wholly lent (c ++ c') w w') w (x >>= fun _ => y) := by
  refine Scoped.bind (hx.mono (fun _ _ h => h.append) fun _ _ h => h) ?_
  rintro w' ⟨⟩ hdone
  exact (hy w' hdone).mono (fun _ _ h => hdone.partly h) fun _ _ h => hdone.append h

theorem plain_one (op : Op) {f : Op.Out op → Except Errno Unit} (hready : w.Ready op)
    (hchange : w.change op = some change) (hahead : Ahead fits (change :: rest) w)
    (hf : ∀ out, outcome op out = (f out).map fun _ => none := by exact fun _ => rfl)
    (hdone : w.succeed op none = (w.change op).elim w w.record := by rfl) :
    Plain (toward fits) (Partly lent [change] w) (fun w' _ => Wholly lent [change] w w') w
      (Prog.call op fun out => .ret (f out)) :=
  plain_change op hready hchange hahead (partly_start (List.cons_ne_nil _ _)) .single hf hdone

theorem kept_closing (hfresh : w.Fresh fd) (hfd : fd ∉ lent) (h : Kept lent (w.give fd object) w') :
    (w'.table fd).isSome ∧ Kept lent w (w'.close fd) := by
  have hopen : w'.table fd = some object := (h.same fd hfd).trans Machine.give_self
  refine ⟨by simp [hopen], fun n hn => ?_, fun n hn ht => ?_⟩
  · by_cases heq : n = fd
    · subst heq
      simp [Machine.close, hfresh.2]
    · have hsame := h.same n hn
      rw [Machine.give_of_ne heq] at hsame
      rw [Machine.close_of_ne heq, hsame]
  · have hne : n ≠ fd := fun heq => hfd (heq ▸ hn)
    obtain ⟨t, ht⟩ := ht
    obtain ⟨t', ht'⟩ := h.trees n hn ⟨t, Machine.give_of_open hfresh ht⟩
    exact ⟨t', by rw [Machine.close_of_ne hne, ht']⟩

/-- The scope of a descriptor, when what is said of its end is said of the changes. -/
theorem scoped_owned {x : Program.Owned.Step Op.Out ε CInt}
    {scope : CInt → Program.Owned.Step Op.Out ε α} {E : ε → List Change → Prop}
    {F : α → List Change → Prop}
    (h : Scoped (toward fits) (fun w' e => Kept lent w w' ∧ E e w'.state)
      (fun w' fd => ∃ w₁ object, w₁.Fresh fd ∧ fd ∉ lent ∧ Kept lent w w₁ ∧
        w' = w₁.give fd object ∧
        Scoped (toward fits) (fun w'' e => Kept lent w' w'' ∧ E e w''.state)
          (fun w'' a => Kept lent w' w'' ∧ F a w''.state) w' (scope fd)) w x) :
    Scoped (toward fits) (fun w' e => Kept lent w w' ∧ E e w'.state)
      (fun w' a => Kept lent w w' ∧ F a w'.state) w (holding x scope) := by
  refine scoped_holding (h.mono (fun _ _ h => h) ?_)
  rintro _ fd ⟨w₁, object, hfresh, hfd, hkept, rfl, hscope⟩
  refine ⟨hfresh.1, hscope.mono ?_ ?_⟩
  · rintro w' e ⟨hkept', hE⟩
    obtain ⟨hopen, hclosed⟩ := kept_closing hfresh hfd hkept'
    exact ⟨hopen, hkept.trans hclosed, hE⟩
  · rintro w' a ⟨hkept', hF⟩
    obtain ⟨hopen, hclosed⟩ := kept_closing hfresh hfd hkept'
    exact ⟨hopen, hkept.trans hclosed, hF⟩

/-! `/dev`. -/

/-- The mount of a filesystem with options and flags. -/
def fsChange (place : Place) (fsType : String) (attrFlags : UInt64)
    (options : List (String × String)) (flags : List String) : Change :=
  .attach place
    { source := .fresh fsType
        (options.map (fun option => (option.1, some option.2)) ++ flags.map fun key => (key, none))
        attrFlags }

theorem scoped_mountFs {fsType : String} {path : PathText} {attrFlags : UInt64}
    {options : List (String × String)} {flags : List String}
    (hdir : w.table root = some (.dir place))
    (hahead : Ahead fits (fsChange (.under place path) fsType attrFlags options flags :: rest) w) :
    Scoped (toward fits)
      (fun w' _ => Partly lent [fsChange (.under place path) fsType attrFlags options flags] w w')
      (fun w' _ => Wholly lent [fsChange (.under place path) fsType attrFlags options flags] w w') w
      (Owned.mountFs fsType root path attrFlags options flags) :=
  scoped_mountOn ((adds_options _).append (adds_flags _)) attaches_move hdir hahead
    (partly_start (List.cons_ne_nil _ _)) .single

theorem scoped_bindDevices : ∀ {names : List String} {w : World},
    w.table root = some (.dir devPlace) → Ahead fits (names.map deviceChange ++ rest) w →
    Scoped (toward fits) (fun w' _ => Partly [] (names.map deviceChange) w w')
      (fun w' _ => Wholly [] (names.map deviceChange) w w') w (Owned.bindDevices root names)
  | [], w, _, _ => ⟨.refl _ w, (List.append_nil _).symm⟩
  | name :: names, w, hdir, hahead => by
    refine scoped_makes makes_createFileAt hdir (partly_start (List.cons_ne_nil _ _)) ?_
    refine scoped_seq (c := [deviceChange name]) ?_ fun w' hdone => ?_
    · exact scoped_copyOn attaches_move
        (fun Q hQ => plain_openTree_host (partly_start (List.cons_ne_nil _ _)) hQ) hdir hahead
        (partly_start (List.cons_ne_nil _ _)) .single
    · exact scoped_bindDevices (hdone.open_of (List.not_mem_nil) hdir) (hdone.ahead hahead)

theorem plain_symlinks : ∀ {links : List (String × String)} {w : World},
    w.table root = some (.dir devPlace) → Ahead fits (links.map linkChange ++ rest) w →
    Plain (toward fits) (Partly [] (links.map linkChange) w)
      (fun w' _ => Wholly [] (links.map linkChange) w w') w (symlinks root links)
  | [], w, _, _ => ⟨.refl _ w, (List.append_nil _).symm⟩
  | (target, name) :: links, w, hdir, hahead => by
    refine plain_seq (c := [linkChange (target, name)]) ?_ fun w' hdone => ?_
    · refine plain_one (.symlinkat target.toList (.fd root) name.toList) (f := id) ⟨_, hdir⟩ ?_
        hahead
      simp [World.change, World.place, World.dir_of hdir, linkChange]
    · exact plain_symlinks (hdone.open_of (List.not_mem_nil) hdir) (hdone.ahead hahead)

/-- The changes in the directory of `/dev`. -/
def devInside : List Change :=
  devices.map deviceChange ++
    ([fsChange (.under devPlace SHM) "tmpfs" (MOUNT_ATTR_NOSUID ||| MOUNT_ATTR_NODEV)
        [("mode", "1777")] []] ++
      ([fsChange (.under devPlace PTS) "devpts" (MOUNT_ATTR_NOSUID ||| MOUNT_ATTR_NOEXEC)
          [("ptmxmode", "0666"), ("mode", "620")] ["newinstance"]] ++
        devLinks.map linkChange))

theorem devChanges_eq : devChanges =
    [fsChange devPlace "tmpfs" (MOUNT_ATTR_NOSUID ||| MOUNT_ATTR_NOEXEC) [("mode", "0755")] []] ++
      devInside := rfl

theorem scoped_devInside (hdir : w.table root = some (.dir devPlace))
    (hahead : Ahead fits (devInside ++ rest) w) :
    Scoped (toward fits) (fun w' _ => Partly [] devInside w w')
      (fun w' _ => Wholly [] devInside w w') w (do
      Owned.bindDevices root devices
      lift (mkdiratAll root SHM)
      Owned.mountFs "tmpfs" root SHM (MOUNT_ATTR_NOSUID ||| MOUNT_ATTR_NODEV) [("mode", "1777")] []
      lift (mkdiratAll root PTS)
      Owned.mountFs "devpts" root PTS (MOUNT_ATTR_NOSUID ||| MOUNT_ATTR_NOEXEC)
        [("ptmxmode", "0666"), ("mode", "620")] ["newinstance"]
      lift (symlinks root devLinks)) := by
  unfold devInside at hahead ⊢
  simp only [List.append_assoc] at hahead
  refine scoped_seq (scoped_bindDevices hdir hahead) fun w₁ h₁ => ?_
  have hdir₁ := h₁.open_of List.not_mem_nil hdir
  have hahead₁ := h₁.ahead hahead
  refine scoped_makes makes_mkdiratAll hdir₁ (partly_start (List.cons_ne_nil _ _)) ?_
  refine scoped_seq (scoped_mountFs hdir₁ hahead₁) fun w₂ h₂ => ?_
  have hdir₂ := h₂.open_of List.not_mem_nil hdir₁
  have hahead₂ := h₂.ahead hahead₁
  refine scoped_makes makes_mkdiratAll hdir₂ (partly_start (List.cons_ne_nil _ _)) ?_
  refine scoped_seq (scoped_mountFs hdir₂ hahead₂) fun w₃ h₃ => ?_
  exact scoped_lift (plain_symlinks (h₃.open_of List.not_mem_nil hdir₂) (h₃.ahead hahead₂))

theorem scoped_setupDev (hroot : w.table root = some (.dir rootPlace))
    (hahead : Ahead fits (devChanges ++ rest) w) :
    Scoped (toward fits) (fun w' _ => Partly [] devChanges w w')
      (fun w' _ => Wholly [] devChanges w w') w
      (Owned.setupDev root) := by
  rw [devChanges_eq] at hahead ⊢
  refine scoped_makes makes_mkdiratAll hroot (partly_start (List.cons_ne_nil _ _)) ?_
  refine scoped_seq (scoped_mountFs hroot hahead) fun w₁ h₁ => ?_
  have hroot₁ := h₁.open_of List.not_mem_nil hroot
  have hahead₁ := h₁.ahead hahead
  refine scoped_owned (E := fun _ log => ∃ part, Part devInside part ∧ log = w₁.state ++ part)
    (F := fun _ log => log = w₁.state ++ devInside) (scoped_lift (P := Partly [] devInside w₁) ?_)
  refine plain_openatDir hroot₁ (partly_start (List.cons_ne_nil _ _)) fun dev hdev => ?_
  exact ⟨w₁, _, hdev, List.not_mem_nil, .refl [] w₁, rfl,
    scoped_devInside Machine.give_self hahead₁⟩

/-! The pivot and what follows. -/

theorem plain_cleanupStaging :
    ∀ {indices : List ℕ} {w : World}, w.table staging = some (.dir stagingPlace) →
      Ahead fits
        (indices.map (fun idx => .unlink (.under stagingPlace (stagingName idx))) ++ rest) w →
      Plain (toward fits)
        (Partly [] (indices.map fun idx => .unlink (.under stagingPlace (stagingName idx))) w)
        (fun w' _ =>
          Wholly [] (indices.map fun idx => .unlink (.under stagingPlace (stagingName idx))) w w') w
        (cleanupStaging staging indices)
  | [], w, _, _ => ⟨.refl _ w, (List.append_nil _).symm⟩
  | idx :: indices, w, hdir, hahead => by
    refine plain_seq (c := [.unlink (.under stagingPlace (stagingName idx))]) ?_ fun w' hdone => ?_
    · refine plain_one (.unlinkat (.fd staging) (stagingName idx) 0) (f := id) ⟨_, hdir⟩ ?_ hahead
      simp [World.change, World.place, World.dir_of hdir, AT_REMOVEDIR]
    · exact plain_cleanupStaging (hdone.open_of (List.not_mem_nil) hdir)
        (hdone.ahead hahead)

/-- The removal of an empty directory, whose outcome is not looked at. -/
theorem plain_rmdir {path : PathText} {P : World → Prop} {Q : World → Unit → Prop}
    {y : Mount.Step Unit} (hy : Plain (toward fits) P Q w y) :
    Plain (toward fits) P Q w (do
      let _ ← ExceptT.lift (Prog.perform (Op.unlinkat .cwd path AT_REMOVEDIR))
      y) := by
  have hchange : w.change (.unlinkat .cwd path AT_REMOVEDIR) = none := by
    simp [World.change]
  refine Plain.bind (Q := fun w' _ => w' = w) (Obeys.lift (Obeys.perform ⟨trivial, ?_⟩ ?_)) ?_
  · intro c hc
    cases hchange.symm.trans hc
  · rintro (err | ⟨⟩) w' hans
    · exact hans
    · have hsame : w.succeed (.unlinkat .cwd path AT_REMOVEDIR) none = w := by
        simp [World.succeed, hchange]
      exact hans.2.trans hsame
  · rintro _ _ rfl
    exact hy

theorem finalChanges_eq (count : ℕ) : finalChanges count =
    [.enter rootPlace] ++ ([.pivot DOT DOT] ++ ([.detach DOT MNT_DETACH] ++
      ((List.range count).map (fun idx => .unlink (.under stagingPlace (stagingName idx))) ++
        [.chdir ROOT_SLASH]))) := by
  simp [finalChanges]

theorem plain_pivotAndCleanup {count : ℕ} (hroot : w.table root = some (.dir rootPlace))
    (hstaging : w.table staging = some (.dir stagingPlace))
    (hahead : Ahead fits (finalChanges count ++ rest) w) :
    Plain (toward fits) (Partly [] (finalChanges count) w)
      (fun w' _ => Wholly [] (finalChanges count) w w') w (pivotAndCleanup root staging count) := by
  rw [finalChanges_eq] at hahead ⊢
  simp only [List.append_assoc] at hahead
  refine plain_seq (plain_one (.fchdir root) (f := id) ⟨_, hroot⟩ ?_ hahead) fun w₁ h₁ => ?_
  · simp [World.change, World.dir_of hroot]
  have hahead₁ := h₁.ahead hahead
  refine plain_seq (plain_one (.pivotRoot DOT DOT) (f := id) trivial rfl hahead₁) fun w₂ h₂ => ?_
  have hahead₂ := h₂.ahead hahead₁
  refine plain_seq (plain_one (.umount2 DOT MNT_DETACH) (f := id) trivial rfl hahead₂)
    fun w₃ h₃ => ?_
  have hstaging₃ := h₃.open_of List.not_mem_nil
    (h₂.open_of List.not_mem_nil (h₁.open_of List.not_mem_nil hstaging))
  have hahead₃ := h₃.ahead hahead₂
  refine plain_seq (plain_cleanupStaging hstaging₃ hahead₃) fun w₄ h₄ => ?_
  refine plain_rmdir (plain_rmdir ?_)
  exact plain_one (.chdir ROOT_SLASH) (f := id) trivial rfl (h₄.ahead hahead₃)

/-! The new root. -/

/-- As `Partly`, where all of the changes may be made. -/
def Upto (lent : List CInt) (changes : List Change) (w w' : World) : Prop :=
  Kept lent w w' ∧ ∃ part, part <+: changes ∧ w'.state = w.state ++ part

theorem plain_mkdirNewRoot {P : World → Prop} {Q : World → Unit → Prop} (hP : P w) (hQ : Q w ()) :
    Plain (toward fits) P Q w mkdirNewRoot := by
  refine ⟨⟨trivial, nofun⟩, ?_⟩
  rintro (err | ⟨⟩) w' hans
  · obtain rfl := hans
    show Plain (toward fits) P Q w' (ite _ _ _)
    split_ifs
    · exact plain_throw hP
    · exact plain_pure hQ
  · obtain ⟨-, rfl⟩ := hans
    exact plain_pure hQ

theorem scoped_setupRoot (hahead : Ahead fits (rootChanges ++ rest) w) :
    Scoped (toward fits) (fun w' _ => Upto lent rootChanges w w')
      (fun w' root => ∃ w₁, w₁.Fresh root ∧ Wholly lent rootChanges w w₁ ∧
        w' = w₁.give root (.dir rootPlace)) w Owned.setupRoot := by
  obtain ⟨tree, htree⟩ : ∃ tree : Tree, tree = { source := .fresh "tmpfs" [] 0 } := ⟨_, rfl⟩
  obtain ⟨isolate, hisolate⟩ : ∃ isolate : Change, isolate =
      .setattr (.host ROOT_SLASH) AT_RECURSIVE { propagation := MS_PRIVATE } := ⟨_, rfl⟩
  have hchanges : rootChanges = [isolate, .attach rootPlace tree] := by
    rw [htree, hisolate]
    rfl
  rw [hchanges] at hahead ⊢
  have hstart : Upto lent [isolate, .attach rootPlace tree] w w :=
    ⟨.refl lent w, [], List.nil_prefix, (List.append_nil _).symm⟩
  have hisolated : Upto lent [isolate, .attach rootPlace tree] w (w.record isolate) :=
    ⟨⟨fun _ _ => rfl, fun _ _ h => h⟩, [isolate], ⟨[_], rfl⟩, rfl⟩
  have hdone : Wholly lent ([isolate] ++ [.attach rootPlace tree]) w
      ((w.record isolate).record (.attach rootPlace tree)) := .append .single .single
  have hall : Upto lent [isolate, .attach rootPlace tree] w
      ((w.record isolate).record (.attach rootPlace tree)) := ⟨hdone.1, _, List.prefix_rfl, hdone.2⟩
  refine Scoped.bind (scoped_lift (P := Upto lent [isolate, .attach rootPlace tree] w)
    (Q := fun w' _ => w' = w.record isolate) ?_) ?_
  · refine Plain.bind (Q := fun w' _ => w' = w.record isolate) ?_ ?_
    · exact plain_change (.mountSetattr .cwd ROOT_SLASH AT_RECURSIVE _) (f := id) trivial
        (congrArg some hisolate.symm) hahead hstart rfl
    · rintro _ ⟨⟩ rfl
      exact plain_mkdirNewRoot hisolated rfl
  rintro _ ⟨⟩ rfl
  refine scoped_mountNew adds_nil hisolated fun fs mnt object hfs hmnt => ?_
  rw [← htree]
  have hfs' : ((w.record isolate).record (.attach rootPlace tree)).Fresh fs := hfs
  have hmnt' : (((w.record isolate).record (.attach rootPlace tree)).give fs object).Fresh mnt :=
    hmnt
  refine Plain.bind (Q := fun w' _ => w' = (((w.record isolate).record
    (.attach rootPlace tree)).give fs object).give mnt (.tree tree)) ?_ ?_
  · refine plain_change (.moveMount mnt .cwd NEW_ROOT_ABS) (f := id)
      ⟨⟨tree, Machine.give_self⟩, trivial⟩ ?_ hahead.record
      (closing_give hmnt (closing_give hfs hisolated)) rfl
    simp [World.change, World.place, World.tree_of Machine.give_self, rootPlace]
  rintro _ ⟨⟩ rfl
  refine plain_openatDir_host (closing_give hmnt' (closing_give hfs' hall)) fun root hroot => ?_
  refine closing_give_give hmnt' hroot (closing_give_give hfs' hroot.of_give.1 ?_)
  exact ⟨_, hroot.of_give.1.of_give.1, hdone, rfl⟩

end Rows

/-! ## The stage -/

/-- How far the stage comes, by the detail of its error. -/
def Stopped (plan : MountPlan) (detail : CInt) (made : List Change) : Prop :=
  (detail = 0 ∧ made <+: rootChanges) ∨
    (detail = 2000 ∧ ∃ part, Part devChanges part ∧ made = rootChanges ++ part) ∨
    (∃ part, StopsIn 0 0 plan.entries detail part ∧ made = rootChanges ++ devChanges ++ part) ∨
    detail = 3000 ∧ ∃ part, Part (finalChanges (countAll 0 plan.entries)) part ∧
      made = rootChanges ++ devChanges ++ entriesChanges 0 plan.entries ++ part

section Setup

open Program.Owned (lift)

variable {plan : MountPlan} {w : World} {root staging : CInt} {lent : List CInt}
  {fits : List Change → Prop} {rest : List Change} {E : CInt → List Change → Prop}
  {F : List Change → Prop}

/-! The stage is followed once, for what is said of its changes and for what is said of its
descriptors alone. -/

/-- What is asked of the entries, so that `E` is said of the changes of a stage that fails with a
detail, and `F` of those of one that succeeds. -/
def EntriesEnd (fits : List Change → Prop) (lent : List CInt) (E : CInt → List Change → Prop)
    (F : List Change → Prop) (entries : List MountEntry) (root staging : CInt) (w : World) : Prop :=
  Scoped (toward fits) (fun w' e => Kept lent w w' ∧ E e.detail w'.state)
    (fun w' count => Kept lent w w' ∧ Ahead fits (finalChanges count ++ []) w' ∧
      (∀ part, Part (finalChanges count) part → E 3000 (w'.state ++ part)) ∧
      F (w'.state ++ finalChanges count)) w
    (Owned.processEntries root staging 0 0 entries)

/-- The stage, where the new root and the directory of the staged files are open. -/
theorem scoped_inside (hroot : w.table root = some (.dir rootPlace))
    (hstaging : w.table staging = some (.dir stagingPlace)) (htrees : Trees lent w)
    (hahead : Ahead fits (devChanges ++ rest) w)
    (hdev : ∀ part, Part devChanges part → E 2000 (w.state ++ part))
    (hentries : ∀ w₁, w₁.table root = some (.dir rootPlace) →
      w₁.table staging = some (.dir stagingPlace) → Beside w w₁ →
      w₁.state = w.state ++ devChanges → EntriesEnd fits lent E F plan.entries root staging w₁) :
    Scoped (toward fits) (fun w' e => Kept lent w w' ∧ E e.detail w'.state)
      (fun w' _ => Kept lent w w' ∧ F w'.state) w (do
        Owned.withDetail 2000 (Owned.setupDev root)
        let contentCount ← Owned.processEntries root staging 0 0 plan.entries
        Owned.withDetail 3000 (lift (pivotAndCleanup root staging contentCount))) := by
  refine Scoped.bind ((scoped_withDetail (scoped_setupDev hroot hahead)).mono ?_ fun _ _ h => h) ?_
  · rintro w' e ⟨hdetail, hkept, part, hpart, hmade⟩
    refine ⟨hkept.mono nofun, ?_⟩
    rw [hdetail, hmade]
    exact hdev part hpart
  rintro w₁ ⟨⟩ h₁
  have hkept₁ : Kept lent w w₁ := h₁.1.mono nofun
  have hroot₁ := h₁.open_of List.not_mem_nil hroot
  have hstaging₁ := h₁.open_of List.not_mem_nil hstaging
  have htrees₁ := htrees.kept hkept₁
  refine Scoped.bind ((hentries w₁ hroot₁ hstaging₁ h₁.1.beside h₁.2).mono ?_ fun _ _ h => h) ?_
  · exact fun w' e ⟨hkept, hE⟩ => ⟨hkept₁.trans hkept, hE⟩
  rintro w₂ count ⟨hkept, hahead₂, hE, hF⟩
  have hroot₂ := (hkept.same root (htrees₁.notMem hroot₁)).trans hroot₁
  have hstaging₂ := (hkept.same staging (htrees₁.notMem hstaging₁)).trans hstaging₁
  have hkept₂ := hkept₁.trans hkept
  refine (scoped_withDetail (scoped_lift
    (plain_pivotAndCleanup hroot₂ hstaging₂ hahead₂))).mono ?_ ?_
  · rintro w' e ⟨hdetail, hkept', part, hpart, hmade⟩
    refine ⟨hkept₂.trans (hkept'.mono nofun), ?_⟩
    rw [hdetail, hmade]
    exact hE part hpart
  · rintro w' ⟨⟩ h₃
    refine ⟨hkept₂.trans (h₃.1.mono nofun), ?_⟩
    rwa [h₃.2]

theorem scoped_makesDir {α : Type} {P : World → MountError → Prop}
    {Q : World → α → Prop} {path : PathText} {place : Place}
    {y : Program.Owned.Step Op.Out MountError α}
    (hdir : w.table root = some (.dir place)) (hP : ∀ e, e.detail = 0 → P w e)
    (hy : Scoped (toward fits) P Q w y) :
    Scoped (toward fits) P Q w
      (Owned.withDetail 0 (lift (mkdiratAll root path)) >>= fun _ => y) := by
  refine Scoped.bind ((scoped_withDetail (P := fun w' => w' = w) (Q := fun w' _ => w' = w)
    (scoped_lift (plain_makes makes_mkdiratAll ⟨place, hdir⟩ rfl fun _ => rfl))).mono ?_
    fun _ _ h => h) ?_
  · rintro _ e ⟨hdetail, rfl⟩
    exact hP e hdetail
  · rintro _ ⟨⟩ rfl
    exact hy

/-- The stage, from the new root on. -/
theorem scoped_stage (htrees : Trees lent w)
    (hahead : Ahead fits (rootChanges ++ (devChanges ++ rest)) w)
    (hroots : ∀ part, part <+: rootChanges → E 0 (w.state ++ part))
    (hdev : ∀ part, Part devChanges part → E 2000 (w.state ++ rootChanges ++ part))
    (hentries : ∀ root staging w₁, w₁.table root = some (.dir rootPlace) →
      w₁.table staging = some (.dir stagingPlace) → Beside w w₁ →
      w₁.state = w.state ++ rootChanges ++ devChanges →
      EntriesEnd fits lent E F plan.entries root staging w₁) :
    Scoped (toward fits) (fun w' e => Kept lent w w' ∧ E e.detail w'.state)
      (fun w' _ => Kept lent w w' ∧ F w'.state) w (Owned.setup plan) := by
  have hsetup : Scoped (toward fits) (fun w' _ => Upto [] rootChanges w w')
      (fun w' root => ∃ w₁, w₁.Fresh root ∧ Wholly [] rootChanges w w₁ ∧
        w' = w₁.give root (.dir rootPlace)) w Owned.setupRoot := scoped_setupRoot hahead
  refine scoped_owned (E := fun e => E e.detail) (F := fun _ => F)
    ((scoped_withDetail hsetup).mono ?_ ?_)
  · rintro w' e ⟨hdetail, hkept, part, hpart, hmade⟩
    refine ⟨hkept.mono nofun, ?_⟩
    rw [hdetail, hmade]
    exact hroots part hpart
  rintro _ root ⟨w₁, hfresh₁, h₁, rfl⟩
  have htrees₁ : Trees lent w₁ := htrees.kept h₁.1
  refine ⟨w₁, _, hfresh₁, htrees₁.notMem_fresh hfresh₁, h₁.1.mono nofun, rfl, ?_⟩
  obtain ⟨w₂, hw₂⟩ : ∃ w₂, w₂ = w₁.give root (.dir rootPlace) := ⟨_, rfl⟩
  have hroot₂ : w₂.table root = some (.dir rootPlace) := hw₂ ▸ Machine.give_self
  have hbeside₂ : Beside w w₂ := hw₂ ▸ h₁.1.beside.trans (beside_give hfresh₁)
  have hlog₂ : w₂.state = w.state ++ rootChanges := by
    rw [hw₂]
    exact h₁.2
  have hahead₂ : Ahead fits (devChanges ++ rest) w₂ := by
    intro part hpart
    have hfits := h₁.ahead hahead part hpart
    rwa [h₁.2, ← hlog₂] at hfits
  rw [← hw₂]
  have hstopped : ∀ e : MountError, e.detail = 0 → Kept lent w₂ w₂ ∧ E e.detail w₂.state := by
    intro e hdetail
    rw [hdetail, hlog₂]
    exact ⟨.refl _ w₂, hroots _ List.prefix_rfl⟩
  refine scoped_makesDir hroot₂ hstopped (scoped_makesDir hroot₂ hstopped ?_)
  refine scoped_owned (E := fun e => E e.detail) (F := fun _ => F)
    ((scoped_withDetail (P := fun w' => w' = w₂) (scoped_lift
    (plain_openatDir hroot₂ rfl fun staging hstaging => ?_))).mono ?_ fun _ _ h => h)
  · have htrees₂ : Trees lent w₂ := htrees.beside hbeside₂
    have hbeside₃ : Beside w₂ (w₂.give staging (.dir stagingPlace)) := beside_give hstaging
    refine ⟨w₂, _, hstaging, htrees₂.notMem_fresh hstaging, .refl _ w₂, rfl, ?_⟩
    refine scoped_inside (hbeside₃ root _ hroot₂) Machine.give_self (htrees₂.beside hbeside₃)
      hahead₂ (hlog₂ ▸ hdev) fun w₃ hroot₃ hstaging₃ hbeside hlog₃ => ?_
    refine hentries root staging w₃ hroot₃ hstaging₃ (hbeside₂.trans (hbeside₃.trans hbeside)) ?_
    rw [hlog₃, ← hlog₂]
    rfl
  · rintro _ e ⟨hdetail, rfl⟩
    exact hstopped e hdetail

theorem ahead_full {full : List Change} (h : w.state ++ rest <+: full) :
    Ahead (· <+: full) rest w :=
  fun _ hpart => ((List.prefix_append_right_inj _).2 hpart).trans h

/-- The stage makes the changes of its plan, up to where it stops, and leaves the descriptors as
they were. -/
theorem scoped_setup (hlent : Lent (plan.entries.flatMap lentBy) w)
    (hnodup : (plan.entries.flatMap lentBy).Nodup) (hlog : w.state = []) :
    Scoped (toward (· <+: changesOf plan))
      (fun w' e => Kept (plan.entries.flatMap lentBy) w w' ∧ Stopped plan e.detail w'.state)
      (fun w' _ => Kept (plan.entries.flatMap lentBy) w w' ∧ w'.state = changesOf plan) w
      (Owned.setup plan) := by
  have hahead : Ahead (· <+: changesOf plan) (rootChanges ++ (devChanges ++
      (entriesChanges 0 plan.entries ++ finalChanges (countAll 0 plan.entries)))) w := by
    refine ahead_full ?_
    rw [hlog]
    simp [changesOf]
  refine scoped_stage (F := fun made => made = changesOf plan) hlent.trees hahead ?_ ?_ ?_
  · exact fun part hpart => .inl ⟨rfl, by rwa [hlog]⟩
  · exact fun part hpart => .inr (.inl ⟨rfl, part, hpart, by rw [hlog, List.nil_append]⟩)
  intro root staging w₁ hroot hstaging hbeside hlog₁
  rw [hlog, List.nil_append] at hlog₁
  have hahead₁ : Ahead (· <+: changesOf plan) (entriesChanges 0 plan.entries ++
      finalChanges (countAll 0 plan.entries)) w₁ := by
    refine ahead_full ?_
    rw [hlog₁]
    simp [changesOf]
  refine (scoped_entries hroot hstaging (hlent.beside hbeside) hnodup hahead₁).mono ?_ ?_
  · rintro w' e ⟨hkept, part, hstops, hmade⟩
    refine ⟨hkept, .inr (.inr (.inl ⟨part, hstops, ?_⟩))⟩
    rw [hmade, hlog₁]
  · rintro w' _ ⟨rfl, hdone⟩
    have hmade : w'.state = rootChanges ++ devChanges ++ entriesChanges 0 plan.entries := by
      rw [hdone.2, hlog₁]
    refine ⟨hdone.1, ?_, fun part hpart => .inr (.inr (.inr ⟨rfl, part, hpart, ?_⟩)), ?_⟩
    · rw [List.append_nil]
      exact hdone.ahead hahead₁
    · rw [hmade]
    · rw [hmade]
      rfl

/-- Whatever it has to do, it leaves the descriptors as they were. -/
theorem kept_setup (htrees : Trees (plan.entries.flatMap lentBy) w) :
    Scoped (toward fun _ => True) (fun w' _ => Kept (plan.entries.flatMap lentBy) w w')
      (fun w' _ => Kept (plan.entries.flatMap lentBy) w w') w (Owned.setup plan) := by
  have hahead : Ahead (fun _ => True) (rootChanges ++ (devChanges ++ [])) w := fun _ _ => trivial
  refine (scoped_stage (E := fun _ _ => True) (F := fun _ => True) htrees hahead
    (fun _ _ => trivial) (fun _ _ => trivial) ?_).mono (fun _ _ h => h.1) fun _ _ h => h.1
  intro root staging w₁ hroot hstaging hbeside _
  exact (kept_entries hroot hstaging (htrees.beside hbeside)).mono (fun _ _ h => ⟨h, trivial⟩)
    fun _ _ h => ⟨h, fun _ _ => trivial, fun _ _ => trivial, trivial⟩

/-- A call makes its change, or none. -/
theorem succeed_log (op : Op) (fd : Option CInt) :
    (w.succeed op fd).state = w.state ∨
      ∃ change, w.change op = some change ∧ (w.succeed op fd).state = w.state ++ [change] := by
  have hrecord : ((w.change op).elim w w.record).state = w.state ∨
      ∃ change, w.change op = some change ∧
        ((w.change op).elim w w.record).state = w.state ++ [change] := by
    cases h : w.change op with
    | none => exact .inl rfl
    | some change => exact .inr ⟨change, rfl, rfl⟩
  unfold World.succeed
  split <;> first | exact .inl rfl | exact hrecord

theorem log_kept {full : List Change} {w w' : World} {op : Program.Owned.Op Op}
    {out : Program.Owned.Op.Out Op.Out op} (hlog : w.state <+: full)
    (hallowed : (Program.Owned.discipline (toward (· <+: full))).allowed w op)
    (hans : Owned.Answers w op out w') :
    w'.state <+: full := by
  cases op with
  | close fd =>
    obtain rfl := hans
    exact hlog
  | call op =>
    rcases World.answers_cases hans with ⟨err, -, rfl⟩ | ⟨fd, -, -, rfl⟩
    · exact hlog
    · rcases succeed_log (w := w) op fd with hsame | ⟨change, hchange, hmade⟩
      · rwa [hsame]
      · rw [hmade]
        exact hallowed.2 change hchange

/-- The mount stage refines its plan, whatever the kernel answers. At every moment, what it has done
is the first of the plan's changes; a stage that fails says in its detail which of them it has come
to, and one that succeeds has made them all. Without the closing of its descriptors it is the stage
that `run` calls. -/
theorem setup_refines (hlent : Lent (plan.entries.flatMap lentBy) w)
    (hnodup : (plan.entries.flatMap lentBy).Nodup) (hlog : w.state = []) :
    Program.Owned.erase (Owned.setup plan) = Mount.setup plan ∧
    (∀ t q w', After (Owned.setup plan).run t q → Answered Owned.Answers w t w' →
      w'.state <+: changesOf plan) ∧
    (∀ e w', Executes Owned.Answers (Owned.setup plan).run w (.error e) w' →
      Stopped plan e.detail w'.state) ∧
    ∀ w', Executes Owned.Answers (Owned.setup plan).run w (.ok ()) w' →
      w'.state = changesOf plan := by
  have hsetup := scoped_setup hlent hnodup hlog
  refine ⟨Owned.erase_setup plan, fun t q w' hafter hans => ?_, fun e w' h => ?_, fun w' h => ?_⟩
  · exact Obeys.keeps (I := fun w => w.state <+: changesOf plan) hsetup hafter hans
      (fun _ _ _ _ => log_kept) (hlog ▸ List.nil_prefix)
  · exact (Obeys.executes hsetup h).2
  · exact (Obeys.executes hsetup h).2

/-- Every call of the mount stage is made on descriptors that are open and of the kind that the call
is for, each descriptor that is closed is open, and when the stage comes back, the open descriptors
are those from before. A tree may be lent to several entries. -/
theorem setup_descriptors (htrees : Trees (plan.entries.flatMap lentBy) w) :
    (∀ t op k w', After (Owned.setup plan).run t (.call (.call op) k) →
      Answered Owned.Answers w t w' → World.Ready w' op) ∧
    (∀ t fd k w', After (Owned.setup plan).run t (.call (.close fd) k) →
      Answered Owned.Answers w t w' → (w'.table fd).isSome) ∧
    ∀ r w', Executes Owned.Answers (Owned.setup plan).run w r w' →
      Kept (plan.entries.flatMap lentBy) w w' := by
  have hsetup := kept_setup htrees
  refine ⟨fun t op k w' hafter hans => ?_, fun t fd k w' hafter hans => ?_, fun r w' h => ?_⟩
  · exact (Obeys.after hsetup hafter hans).1.1
  · exact (Obeys.after hsetup hafter hans).1
  · have hend := Obeys.executes hsetup h
    rcases r with e | ⟨⟩
    · exact hend
    · exact hend

end Setup

/-! ## A kernel that refuses nothing -/

section Granted

variable {α : Type} {w : World} {op : Mount.Op} {fd n : CInt} {given : Option CInt}

/-- What it answers, with `fd` as the next descriptor. -/
def granted (fd : CInt) : (op : Mount.Op) → op.Out
  | .fsopen _ | .fsmount _ _ | .openTree _ _ _ | .openatDir _ _ => .ok fd
  | .mountSetattr _ _ _ _ | .mkdir _ | .fsconfigSetString _ _ _ | .fsconfigSetFlag _ _ |
    .fsconfigCreate _ | .moveMount _ _ _ | .mkdirat _ _ | .createFileAt _ _ | .writeFileAt _ _ _ |
    .symlinkat _ _ _ | .fchdir _ | .pivotRoot _ _ | .umount2 _ _ | .unlinkat _ _ _ | .chdir _ =>
    .ok ()

/-- What a program comes back with there, if the descriptors from `fd` on are free. -/
def driven : Prog (Program.Owned.Op Mount.Op) (Program.Owned.Op.Out Mount.Op.Out) α →
    ℕ → Option α
  | .ret a, _ => some a
  | .call (.close _) k, fd => driven (k ()) fd
  | .call (.call op) k, fd =>
    if fd < 2 ^ 31 then driven (k (granted (Int32.ofNat fd) op)) (fd + 1) else none

theorem outcome_granted :
    ∃ given, outcome op (granted fd op) = .ok given ∧ ∀ n ∈ given, n = fd := by
  cases op <;> exact ⟨_, rfl, by simp⟩

theorem succeed_table (h : w.table n = none) (hne : ∀ m ∈ given, n ≠ m) :
    (w.succeed op given).table n = none := by
  have hmodify : ∀ m f, (w.modify m f).table n = none := fun m f => by
    simp only [Machine.modify, Function.update_apply]
    split_ifs with heq
    · rw [← heq, h, Option.map_none]
    · exact h
  unfold World.succeed
  split
  · exact (Machine.give_of_ne (hne _ rfl)).trans h
  · exact (Machine.give_of_ne (hne _ rfl)).trans h
  · exact (Machine.give_of_ne (hne _ rfl)).trans h
  · exact (Machine.give_of_ne (hne _ rfl)).trans h
  · exact hmodify _ _
  · exact hmodify _ _
  · exact hmodify _ _
  · exact hmodify _ _
  · cases w.change _ <;> exact h

theorem executes_of_driven {a : α}
    {p : Prog (Program.Owned.Op Mount.Op) (Program.Owned.Op.Out Mount.Op.Out) α} :
    ∀ {fd : ℕ} {w : World}, (∀ n, fd ≤ n → n < 2 ^ 31 → w.table (Int32.ofNat n) = none) →
      driven p fd = some a → ∃ w', Executes Owned.Answers p w a w' := by
  induction p with
  | ret b =>
    intro fd w _ h
    obtain rfl := Option.some.inj h
    exact ⟨w, .ret _ _⟩
  | call op k ih =>
    intro fd w hfree h
    cases op with
    | close n =>
      have hclosed : ∀ m, fd ≤ m → m < 2 ^ 31 → (w.close n).table (Int32.ofNat m) = none := by
        intro m hle hlt
        simp only [Machine.close, Function.update_apply]
        split_ifs
        · rfl
        · exact hfree m hle hlt
      obtain ⟨w', hrun⟩ := ih () hclosed h
      exact ⟨w', .call rfl hrun⟩
    | call op =>
      simp only [driven] at h
      split_ifs at h with hlt
      obtain ⟨given, houtcome, hgiven⟩ := @outcome_granted op (Int32.ofNat fd)
      have hfresh : w.Fresh (Int32.ofNat fd) := by
        refine ⟨?_, hfree fd le_rfl hlt⟩
        rw [Int32.le_iff_toInt_le, Int32.toInt_ofNat_of_lt hlt]
        exact Int.natCast_nonneg fd
      have hans : World.Answers w op (granted (Int32.ofNat fd) op) (w.succeed op given) := by
        unfold World.Answers
        rw [houtcome]
        exact ⟨fun n hn => hgiven n hn ▸ hfresh, rfl⟩
      have hfree' : ∀ n, fd + 1 ≤ n → n < 2 ^ 31 →
          (w.succeed op given).table (Int32.ofNat n) = none := by
        intro n hle hn
        refine succeed_table (hfree n (by omega) hn) fun m hm heq => ?_
        have hsame := congrArg Int32.toInt (heq.trans (hgiven m hm))
        rw [Int32.toInt_ofNat_of_lt hn, Int32.toInt_ofNat_of_lt hlt] at hsame
        omega
      obtain ⟨w', hrun⟩ := ih _ hfree' h
      exact ⟨w', .call hans hrun⟩

end Granted

/-- A tree that is lent, and a tmpfs. -/
def lendingPlan : MountPlan :=
  ⟨[.bind (.prepared 9) "data" true true, .tmpfs "tmp" false (some 65536) (some 0o1777)]⟩

def lendingWorld : World where
  table n := if n = 9 then some (.tree { source := .prepared 9 }) else none
  state := []

theorem lendingWorld_lent : Lent (lendingPlan.entries.flatMap lentBy) lendingWorld := by
  intro fd hfd
  obtain rfl : fd = 9 := List.mem_singleton.1 hfd
  rfl

theorem lendingWorld_free : ∀ n, 10 ≤ n → n < 2 ^ 31 →
    lendingWorld.table (Int32.ofNat n) = none := by
  intro n hle hlt
  refine if_neg fun heq => ?_
  have hsame := congrArg Int32.toInt heq
  rw [Int32.toInt_ofNat_of_lt hlt] at hsame
  have hnine : Int32.toInt 9 = 9 := rfl
  omega

theorem lendingPlan_mounted : ∃ w',
    Executes Owned.Answers (Owned.setup lendingPlan).run lendingWorld (.ok ()) w' ∧
      w'.state = changesOf lendingPlan := by
  have hdriven : driven (Owned.setup lendingPlan).run 10 = some (.ok ()) := rfl
  obtain ⟨w', hrun⟩ := executes_of_driven lendingWorld_free hdriven
  exact ⟨w', hrun, (setup_refines lendingWorld_lent (by decide) rfl).2.2.2 _ hrun⟩

/-- The same tree, lent to two entries. -/
def twicePlan : MountPlan :=
  ⟨[.bind (.prepared 9) "data" true true, .bind (.prepared 9) "copy" true false]⟩

/-- Where the tmpfs of the new root is refused, its context is closed. -/
theorem twicePlan_closes :
    (∃ w', Executes Owned.Answers (Owned.setup twicePlan).run lendingWorld (.ok ()) w' ∧
      Kept [9, 9] lendingWorld w') ∧
    Reaches Owned.Answers (fun w q => (∃ k, q = .call (.close 3) k) ∧ (w.table 3).isSome)
      lendingWorld (Owned.setup twicePlan).run := by
  have htrees : Trees (twicePlan.entries.flatMap lentBy) lendingWorld := by
    intro fd hfd
    have hnine : fd = 9 := by simpa [twicePlan, lentBy] using hfd
    exact ⟨_, if_pos hnine⟩
  have hdescriptors := setup_descriptors htrees
  constructor
  · have hdriven : driven (Owned.setup twicePlan).run 10 = some (.ok ()) := rfl
    obtain ⟨w', hrun⟩ := executes_of_driven lendingWorld_free hdriven
    exact ⟨w', hrun, hdescriptors.2.2 _ _ hrun⟩
  have hreach : Reaches Owned.Answers (fun _ q => ∃ k, q = .call (.close 3) k) lendingWorld
      (Owned.setup twicePlan).run := by
    refine reaches_call (Except.ok () : Except Errno Unit) ⟨nofun, rfl⟩ ?_
    refine reaches_call (Except.ok () : Except Errno Unit) ⟨nofun, rfl⟩ ?_
    refine reaches_call (Except.ok 3 : Except Errno CInt) ⟨?_, rfl⟩ ?_
    · rintro _ ⟨⟩
      exact ⟨by decide, rfl⟩
    refine reaches_call (Except.error 1 : Except Errno Unit) rfl ?_
    exact reaches_here ⟨_, rfl⟩
  obtain ⟨t, q, w', hafter, hans, k, rfl⟩ := hreach
  exact ⟨t, _, w', hafter, hans, ⟨k, rfl⟩, hdescriptors.2.1 t 3 k w' hafter hans⟩

end Pnut.Child.Mount
