import Pnut.Proofs.Confined
import Pnut.Proofs.Enforced
import Pnut.Proofs.Mounted

/-!
# The command has what the builder lists

The process once more, with the mount stage and the Landlock stage carried out by their system
calls. Whatever the kernel answers, when the process comes to `execve` the mount table has been
changed as the plan of the builder's mounts says, and the process is below one layer more than at
its start, that of the builder's lists. Where the builder has no mounts, or no lists, nothing has
been changed.
-/

namespace Pnut.Process

open Program Prog
open Child (CInt Errno ExecSpec Envp Prim Target LandlockSpec MountPlan)
open Child.Landlock (FileTree Domain Ruleset Narrows)
open Child.Mount (Change changesOf lentBy toward)
open Collect (exists_of_bind exists_of_mapM_some)
open Parent (Error Point Texts)
open Config (Sandbox Host SandboxBuilder prepareMounts)

/-! ## Down to the calls of the stages -/

inductive SysOp where
  | process (op : Op)
  | mount (op : Program.Owned.Op Child.Mount.Op)
  | landlock (op : Program.Owned.Op Child.Landlock.Op)

abbrev SysOp.Out : SysOp → Type
  | .process op => Op.Out op
  | .mount op => Program.Owned.Op.Out Child.Mount.Op.Out op
  | .landlock op => Program.Owned.Op.Out Child.Landlock.Op.Out op

/-- `mount::setup` and `landlock::apply`, in the place of the primitives that stand for them. -/
def applied : (op : Op) → Prog SysOp SysOp.Out (Op.Out op)
  | .child (.mountSetup plan) =>
    (Child.Mount.Owned.setup plan).run.interpret fun op => Prog.perform (SysOp.mount op)
  | .child (.landlockApply spec) =>
    (Child.Landlock.apply spec).run.interpret fun op => Prog.perform (SysOp.landlock op)
  | op => Prog.perform (SysOp.process op)

def sysRun {C : Type} (texts : Texts) (target : Target) (sandbox : Sandbox C) :
    Loop SysOp SysOp.Out Point (Except Error CInt) :=
  (run texts target sandbox).interpret applied

variable {File : Type}

/-- The process, and what the kernel keeps of its descriptors, its mounts and its layers. -/
structure Whole (File : Type) where
  process : State
  tree : Child.Mount.World
  layers : Child.Landlock.World File

/-- The lists take away what they do not name; without them nothing is taken away. -/
def Narrowed (fs : FileTree File) : Option Pnut.Sandbox.Landlock → Domain File → Domain File → Prop
  | none, before, after => after = before
  | some config, before, after => Narrows fs config before after

/-- The mount table has been changed as the mounts say, and the process is below the lists. -/
structure Furnished (host : Host) (mounts : Pnut.Sandbox.Table)
    (lists : Option Pnut.Sandbox.Landlock) (fs : FileTree File) (domain : Domain File)
    (w : Whole File) : Prop where
  tree : ∃ plan, prepareMounts host.sources mounts = .ok plan ∧
    w.tree.state = plan.elim [] changesOf
  layers : Narrowed fs lists domain w.layers.state

section Whole

variable {C : Type} [Pnut.Sandbox.Capability C] (host : Host) (sandbox : Sandbox C)
  (fs : FileTree File)

/-- How a call is answered. A call may open and close descriptors; the mounts and the layers are
left to the calls of their stages. -/
def Whole.Answers (w : Whole File) : (op : SysOp) → SysOp.Out op → Whole File → Prop
  | .process op, out, w' => Process.Answers host sandbox w.process op out w'.process ∧
      w'.tree.state = w.tree.state ∧ w'.layers.state = w.layers.state
  | .mount op, out, w' => w'.process = w.process ∧
      Child.Mount.Owned.Answers w.tree op out w'.tree ∧ w'.layers.state = w.layers.state
  | .landlock op, out, w' => w'.process = w.process ∧ w'.tree.state = w.tree.state ∧
      Child.Landlock.Answers fs w.layers op out w'.layers

/-- The calls of the stages are what they should be, and the command starts with what they made. -/
def Whole.Allowed (domain : Domain File) (w : Whole File) : SysOp → Prop
  | .process op => ∀ exec envp, op = .child (.execve exec envp) →
      Furnished host sandbox.mounts sandbox.landlock fs domain w
  | .mount op => ∃ plan, prepareMounts host.sources sandbox.mounts = .ok (some plan) ∧
      (Program.Owned.discipline (toward (· <+: changesOf plan))).allowed w.tree op
  | .landlock op => (Program.Owned.discipline (Child.Landlock.discipline fs)).allowed w.layers op

def sysDiscipline (domain : Domain File) : Discipline SysOp SysOp.Out (Whole File) where
  allowed := Whole.Allowed host sandbox fs domain
  answers := Whole.Answers host sandbox fs

/-- The changes behind a plan. A plan that is none of the sandbox's stands for a stage that
failed. -/
def Made : Option MountPlan → List Change → Prop
  | none, made => made = []
  | some plan, made => prepareMounts host.sources sandbox.mounts = .ok (some plan) →
      made = changesOf plan

/-- The layers behind a plan, if one has been applied. -/
def Behind (domain : Domain File) : Option LandlockSpec → Domain File → Prop
  | none, after => after = domain
  | some spec, after => spec.minAbi.toNat ≤ domain.abi ∧
      (∀ rule ∈ spec.pathRules, (fs.resolve rule.path).isSome) ∧
      after = domain.restrict (.ofSpec fs spec)

def State.withPlans (w : State) (mounts : Option MountPlan) (lists : Option LandlockSpec) :
    State :=
  w.modify fun a => { a with mounts := mounts, landlock := lists }

/-- The state of the process without its plans, of which the kernel has what they made. -/
def Stands (domain : Domain File) (w' : Whole File) (w : State) : Prop :=
  ∃ mounts lists, w = w'.process.withPlans mounts lists ∧
    Made host sandbox mounts w'.tree.state ∧ Behind fs domain lists w'.layers.state

end Whole

section Plans

variable {C : Type} {host : Host} {sandbox : Sandbox C} {fs : FileTree File}

/-- A plan makes the changes of the mounts that it comes from. -/
theorem changes_of_made {mounts : Option MountPlan} {made : List Change}
    (hplan : prepareMounts host.sources sandbox.mounts = .ok mounts)
    (h : Made host sandbox mounts made) : made = mounts.elim [] changesOf := by
  cases mounts with
  | none => exact h
  | some plan => exact h hplan

/-- A plan narrows to the lists that it is made of. -/
theorem narrowed_of_prepared {lists : Option Pnut.Sandbox.Landlock}
    {plan : Option LandlockSpec} {domain after : Domain File}
    (hplan : lists.mapM (·.prepare) = .ok plan) (h : Behind fs domain plan after) :
    Narrowed fs lists domain after := by
  cases lists with
  | none =>
    obtain rfl := Except.ok.inj hplan
    exact h
  | some config =>
    obtain ⟨spec, hspec, rfl⟩ := exists_of_mapM_some hplan
    obtain ⟨habi, hsome, rfl⟩ := h
    exact Child.Landlock.narrows_of_prepared hspec habi hsome

/-- What is bound is named by its path, so no descriptor is lent. -/
theorem lentBy_prepare {sources : Pnut.Sandbox.Sources} {entry : Pnut.Sandbox.MountEntry}
    {prepared : Child.MountEntry} (h : entry.prepare sources = .ok prepared) :
    lentBy prepared = [] := by
  cases entry with
  | bind src dst readOnly =>
    rw [Pnut.Sandbox.MountEntry.prepare] at h
    cases hdir : sources.isDir src with
    | error e =>
      rw [hdir] at h
      cases h
    | ok srcIsDir =>
      rw [hdir] at h
      obtain ⟨source, -, h⟩ := exists_of_bind h
      obtain ⟨dstRel, -, h⟩ := exists_of_bind h
      obtain rfl := Except.ok.inj h
      rfl
  | _ =>
    obtain ⟨dstRel, -, h⟩ := exists_of_bind h
    obtain rfl := Except.ok.inj h
    rfl

theorem lentBy_prepareEntries {sources : Pnut.Sandbox.Sources} :
    ∀ {table : Pnut.Sandbox.Table} {entries : List Child.MountEntry},
      Pnut.Sandbox.prepareEntries sources table = .ok entries → entries.flatMap lentBy = []
  | [], _, h => by
    obtain rfl := Except.ok.inj h
    rfl
  | entry :: table, _, h => by
    obtain ⟨prepared, hprepared, h⟩ := exists_of_bind h
    obtain ⟨entries, hentries, h⟩ := exists_of_bind h
    obtain rfl := Except.ok.inj h
    rw [List.flatMap_cons, lentBy_prepare hprepared, lentBy_prepareEntries hentries]
    rfl

theorem lentBy_prepareMounts {sources : Pnut.Sandbox.Sources} {mounts : Pnut.Sandbox.Table}
    {plan : MountPlan} (h : prepareMounts sources mounts = .ok (some plan)) :
    plan.entries.flatMap lentBy = [] := by
  unfold prepareMounts at h
  split_ifs at h with hnil
  · cases h
  · obtain ⟨plan', hplan, h⟩ := exists_of_bind h
    obtain ⟨entries, hentries, hplan⟩ := exists_of_bind hplan
    obtain rfl := Except.ok.inj hplan
    obtain rfl := Option.some.inj (Except.ok.inj h)
    exact lentBy_prepareEntries hentries

end Plans

section Sys

variable {C : Type} [Pnut.Sandbox.Capability C] {host : Host} {sandbox : Sandbox C}
  {fs : FileTree File} {domain : Domain File} {w w₁ : State} {w' : Whole File} {op : Op}

theorem applied_eq (hmount : ∀ plan, op ≠ .child (.mountSetup plan))
    (hlandlock : ∀ spec, op ≠ .child (.landlockApply spec)) :
    applied op = Prog.perform (SysOp.process op) := by
  cases op with
  | child prim =>
    cases prim <;> first | rfl | exact absurd rfl (hmount _) | exact absurd rfl (hlandlock _)
  | _ => rfl

/-- The other calls neither read nor change the plans. -/
theorem answers_withPlans {out : Op.Out op} (mounts : Option MountPlan)
    (lists : Option LandlockSpec) (hmount : ∀ plan, op ≠ .child (.mountSetup plan))
    (hlandlock : ∀ spec, op ≠ .child (.landlockApply spec))
    (h : Answers host sandbox w op out w₁) :
    Answers host sandbox (w.withPlans mounts lists) op out (w₁.withPlans mounts lists) := by
  cases op with
  | parent op =>
    cases op with
    | prepare => exact ⟨h.1, congrArg (State.withPlans · mounts lists) h.2⟩
    | pipe => rcases out with err | ends <;> exact congrArg (State.withPlans · mounts lists) h
    | pipe2Cloexec =>
      rcases out with err | ends <;> exact congrArg (State.withPlans · mounts lists) h
    | clone3 flags =>
      rcases out with err | _ | child <;> exact congrArg (State.withPlans · mounts lists) h
    | writeFile path content =>
      rcases out with err | ⟨⟩ <;> exact congrArg (State.withPlans · mounts lists) h
    | _ => exact congrArg (State.withPlans · mounts lists) h
  | unshare flags =>
    rcases out with err | ⟨⟩ <;> exact congrArg (State.withPlans · mounts lists) h
  | getpid => exact congrArg (State.withPlans · mounts lists) h
  | child prim =>
    rcases h with ⟨hfails, a, rfl⟩ | ⟨hpass, rfl⟩
    · exact .inl ⟨hfails, { a with mounts := mounts, landlock := lists }, rfl⟩
    · refine .inr ⟨hpass, ?_⟩
      cases prim <;> first | rfl | exact absurd rfl (hmount _) | exact absurd rfl (hlandlock _)

/-- The mount stage, where nothing has been mounted yet. -/
theorem mount_obeys {plan : MountPlan}
    (hplan : prepareMounts host.sources sandbox.mounts = .ok (some plan))
    (hlog : w'.tree.state = []) :
    (applied (.child (.mountSetup plan))).Obeys (sysDiscipline host sandbox fs domain)
      (fun w₁' out => w₁'.process = w'.process ∧ w₁'.layers.state = w'.layers.state ∧
        (out = .ok () → w₁'.tree.state = changesOf plan)) w' := by
  have hlent := lentBy_prepareMounts hplan
  have hstage : Scoped (toward (· <+: changesOf plan)) _ _ w'.tree (Child.Mount.Owned.setup plan) :=
    Child.Mount.scoped_setup (by rw [hlent]; exact nofun) (by simp [hlent]) hlog
  have hrep : w'.tree = w'.tree ∧ w'.process = w'.process ∧ w'.layers.state = w'.layers.state :=
    ⟨rfl, rfl, rfl⟩
  refine Obeys.mono (Obeys.interpret (R := fun (w'' : Whole File) tree =>
    w''.tree = tree ∧ w''.process = w'.process ∧ w''.layers.state = w'.layers.state)
    ?_ hstage hrep) ?_
  · rintro tree w'' op ⟨rfl, hprocess, hlayers⟩ hop
    exact Obeys.perform ⟨plan, hplan, hop⟩ fun out w₁ hans =>
      ⟨w₁.tree, hans.2.1, rfl, hans.1.trans hprocess, hans.2.2.trans hlayers⟩
  · rintro w₁' (err | ⟨⟩) ⟨tree, ⟨rfl, hprocess, hlayers⟩, hend⟩
    · exact ⟨hprocess, hlayers, nofun⟩
    · exact ⟨hprocess, hlayers, fun _ => hend.2⟩

/-- The Landlock stage, where no plan has been applied yet. -/
theorem landlock_obeys {spec : LandlockSpec} {config : Pnut.Sandbox.Landlock}
    (hspec : config.prepare = .ok spec) (hdomain : w'.layers.state = domain) :
    (applied (.child (.landlockApply spec))).Obeys (sysDiscipline host sandbox fs domain)
      (fun w₁' out => w₁'.process = w'.process ∧ w₁'.tree.state = w'.tree.state ∧
        ((∃ err, out = .error err) ∧ w₁'.layers.state = domain ∨
          out = .ok () ∧ Behind fs domain (some spec) w₁'.layers.state)) w' := by
  have hstage : Scoped (Child.Landlock.discipline fs) _ _ w'.layers (Child.Landlock.apply spec) :=
    Child.Landlock.scoped_apply (Child.Landlock.sound_of_prepared hspec)
  have hrep : w'.layers = w'.layers ∧ w'.process = w'.process ∧ w'.tree.state = w'.tree.state :=
    ⟨rfl, rfl, rfl⟩
  refine Obeys.mono (Obeys.interpret (R := fun (w'' : Whole File) layers =>
    w''.layers = layers ∧ w''.process = w'.process ∧ w''.tree.state = w'.tree.state)
    ?_ hstage hrep) ?_
  · rintro layers w'' op ⟨rfl, hprocess, htree⟩ hop
    exact Obeys.perform hop fun out w₁ hans =>
      ⟨w₁.layers, hans.2.2, rfl, hans.1.trans hprocess, hans.2.1.trans htree⟩
  · rintro w₁' (err | ⟨⟩) ⟨layers, ⟨rfl, hprocess, htree⟩, hend⟩
    · have hsame : w₁'.layers = w'.layers := hend
      exact ⟨hprocess, htree, .inl ⟨⟨err, rfl⟩, by rw [hsame, hdomain]⟩⟩
    · obtain ⟨habi, hsome, hmade⟩ := hend
      refine ⟨hprocess, htree, .inr ⟨rfl, hdomain ▸ habi, hsome, ?_⟩⟩
      rw [hmade, ← hdomain]
      rfl

/-- Each call of the process is carried out as its state says. -/
theorem applied_obeys (w : State) (w' : Whole File) (op : Op)
    (hstands : Stands host sandbox fs domain w' w) (hop : (discipline host sandbox).allowed w op) :
    (applied op).Obeys (sysDiscipline host sandbox fs domain)
      (fun w₁' out => ∃ w₁, (discipline host sandbox).answers w op out w₁ ∧
        Stands host sandbox fs domain w₁' w₁) w' := by
  obtain ⟨mounts, lists, rfl, hmade, hbehind⟩ := hstands
  by_cases hmount : ∃ plan, op = .child (.mountSetup plan)
  · obtain ⟨plan, rfl⟩ := hmount
    obtain ⟨-, hnone, hprepared⟩ := hop _ rfl
    obtain rfl : mounts = none := hnone
    refine (mount_obeys hprepared hmade).mono ?_
    rintro w₁' (err | ⟨⟩) ⟨hprocess, hlayers, hmade'⟩
    · -- a plan that cannot be the sandbox's
      refine ⟨_, .inl ⟨trivial, _, rfl⟩, some ⟨.mqueue "" :: plan.entries⟩, lists,
        by rw [hprocess]; rfl, fun hother => ?_, hlayers ▸ hbehind⟩
      have heq := Option.some.inj (Except.ok.inj (hprepared.symm.trans hother))
      exact absurd (congrArg MountPlan.entries heq).symm (List.cons_ne_self _ _)
    · exact ⟨_, .inr ⟨id, rfl⟩, some plan, lists, by rw [hprocess]; rfl, fun _ => hmade' rfl,
        hlayers ▸ hbehind⟩
  by_cases hlandlock : ∃ spec, op = .child (.landlockApply spec)
  · obtain ⟨spec, rfl⟩ := hlandlock
    obtain ⟨hnone, hprepared⟩ := hop _ rfl
    obtain rfl : lists = none := hnone
    obtain ⟨config, hspec⟩ : ∃ config : Pnut.Sandbox.Landlock, config.prepare = .ok spec := by
      cases hlists : sandbox.landlock with
      | none =>
        rw [hlists] at hprepared
        cases hprepared
      | some config =>
        rw [hlists] at hprepared
        obtain ⟨spec', hspec, heq⟩ := exists_of_mapM_some hprepared
        obtain rfl := Option.some.inj heq
        exact ⟨config, hspec⟩
    refine (landlock_obeys hspec hbehind).mono ?_
    rintro w₁' out ⟨hprocess, htree, ⟨⟨err, rfl⟩, hstate⟩ | ⟨rfl, hafter⟩⟩
    · exact ⟨_, .inl ⟨trivial, _, rfl⟩, mounts, none, by rw [hprocess], htree ▸ hmade, hstate⟩
    · exact ⟨_, .inr ⟨id, rfl⟩, mounts, some spec, by rw [hprocess]; rfl, htree ▸ hmade, hafter⟩
  have hmount' : ∀ plan, op ≠ .child (.mountSetup plan) := fun plan heq => hmount ⟨plan, heq⟩
  have hlandlock' : ∀ spec, op ≠ .child (.landlockApply spec) :=
    fun spec heq => hlandlock ⟨spec, heq⟩
  rw [applied_eq hmount' hlandlock']
  refine Obeys.perform (fun exec envp heq => ?_) fun out w₁' hans => ?_
  · have hconfined : Confined host sandbox _ exec envp := hop _ heq
    exact ⟨⟨mounts, hconfined.mounts, changes_of_made hconfined.mounts hmade⟩,
      narrowed_of_prepared hconfined.landlock hbehind⟩
  · obtain ⟨hprocess, htree, hlayers⟩ := hans
    exact ⟨_, answers_withPlans mounts lists hmount' hlandlock' hprocess, mounts, lists, rfl,
      htree ▸ hmade, hlayers ▸ hbehind⟩

end Sys

/-! ## From the builder to the command -/

section Build

variable {C : Type} [Pnut.Sandbox.Capability C] {b : Build} {pest : Kafel.Pest}
  {prelude : List Char} {files : Pnut.Sandbox.FileSystem} {sources : Pnut.Sandbox.Sources}
  {builder : SandboxBuilder C} {sandbox : Sandbox C} {host : Host} {texts : Texts}
  {target : Target} {fs : FileTree File} {t : List (Event SysOp.Out)} {w : Whole File}
  {table : CInt → Option Child.Mount.Object} {layers : Child.Landlock.World File}

/-- Whatever came back of the calls before, the system calls of the two stages among them, a process
that calls `execve` has the mounts of the builder, and may do with files and ports what it could do
at its start and the builder's lists name. The files are those that the Landlock stage finds. -/
theorem exec_furnished {exec : ExecSpec} {envp : Envp}
    {k : Errno → Prog SysOp SysOp.Out (Point ⊕ Except Error CInt)}
    (hbuild : builder.build b pest prelude files sources = .ok sandbox)
    (h : LoopAfter (sysRun texts target sandbox) (sysRun texts target sandbox .start) t
      (.call (.process (.child (.execve exec envp))) k))
    (hans : Answered (Whole.Answers host sandbox fs) ⟨.init, ⟨table, []⟩, layers⟩ t w) :
    Furnished host builder.mounts builder.landlock fs layers.state w := by
  have hkeeps : (run texts target sandbox).Keeps (discipline host sandbox) (pointInv sandbox)
      fun _ _ => True := run_keeps (program_length hbuild)
  have hsys : (sysRun texts target sandbox).Keeps (sysDiscipline host sandbox fs layers.state)
      _ _ := hkeeps.interpret (R := Stands host sandbox fs layers.state) applied_obeys
  have hstart : Stands host sandbox fs layers.state ⟨.init, ⟨table, []⟩, layers⟩ .init :=
    ⟨none, none, rfl, rfl, rfl⟩
  have hobeys := LoopAfter.obeys hsys h hans (hsys _ _ ⟨_, hstart, rfl⟩)
  obtain ⟨hof, -⟩ := Config.build_ok hbuild
  rw [← hof.mounts, ← hof.landlock]
  exact hobeys.1 exec envp rfl

end Build

/-! The sandbox that replaces its process, with a tmpfs and a directory to read. -/

section Web

open Child.Landlock (webConfig webFiles webWorld)

def webMounts : Pnut.Sandbox.Table := [.tmpfs "/tmp" none none false]

def webPlan : MountPlan := ⟨[.tmpfs "tmp" false none none]⟩

def webBuilder : SandboxBuilder (Fin 41) where
  mode := .execve
  command := { args := ["/bin/true"] }
  namespaces := { pid := false, allowNestedUserns := true }
  mounts := webMounts
  uidMap := some ⟨0, 1000, 1⟩
  gidMap := some ⟨0, 1000, 1⟩
  landlock := some webConfig
  fd := some { mappings := [], closeFds := false }

def webSandbox : Sandbox (Fin 41) where
  mode := .execve
  command := { args := ["/bin/true"] }
  process := {}
  namespaces := { pid := false, allowNestedUserns := true }
  mounts := webMounts
  uidMap := ⟨0, 1000, 1⟩
  gidMap := ⟨0, 1000, 1⟩
  env := none
  rlimits := none
  landlock := some webConfig
  capabilities := none
  fd := some { mappings := [], closeFds := false }
  seccompProgram := none
  args_ne_nil := by simp
  uts_of_hostname := by simp
  mount_of_mounts := fun _ => rfl
  no_pid_of_execve := fun _ => rfl

theorem web_build : webBuilder.build .debug (Kafel.Pest.interpreter Kafel.silentError) []
    Pnut.Sandbox.noFiles noSources = .ok webSandbox := by
  rfl

def webRun : Loop SysOp SysOp.Out Point (Except Error CInt) :=
  sysRun Parent.silentTexts .x86 webSandbox

def WebLeads (P : Whole ℕ → Prog SysOp SysOp.Out (Point ⊕ Except Error CInt) → Prop) : Prop :=
  webRun.Leads (Whole.Answers emptyHost webSandbox webFiles) P
    ⟨.init, ⟨fun _ => none, []⟩, webWorld⟩ (webRun .start)

variable {P : Whole ℕ → Prog SysOp SysOp.Out (Point ⊕ Except Error CInt) → Prop} {w : State}
  {tree : Child.Mount.World} {layers : Child.Landlock.World ℕ}

theorem leads_process {op : Op} {w₁ : State}
    {k : Op.Out op → Prog SysOp SysOp.Out (Point ⊕ Except Error CInt)} (out : Op.Out op)
    (hans : Process.Answers emptyHost webSandbox w op out w₁)
    (h : webRun.Leads (Whole.Answers emptyHost webSandbox webFiles) P ⟨w₁, tree, layers⟩ (k out)) :
    webRun.Leads (Whole.Answers emptyHost webSandbox webFiles) P ⟨w, tree, layers⟩
      (.call (.process op) k) := by
  have hstep : Whole.Answers emptyHost webSandbox webFiles ⟨w, tree, layers⟩ (.process op) out
      ⟨w₁, tree, layers⟩ := ⟨hans, rfl, rfl⟩
  exact Loop.leads_call out hstep h

theorem leads_mount {α : Type} {a : α} {tree₁ : Child.Mount.World}
    {p : Prog (Program.Owned.Op Child.Mount.Op) (Program.Owned.Op.Out Child.Mount.Op.Out) α}
    {k : α → Prog SysOp SysOp.Out (Point ⊕ Except Error CInt)}
    (hrun : Executes Child.Mount.Owned.Answers p tree a tree₁)
    (h : webRun.Leads (Whole.Answers emptyHost webSandbox webFiles) P ⟨w, tree₁, layers⟩ (k a)) :
    webRun.Leads (Whole.Answers emptyHost webSandbox webFiles) P ⟨w, tree, layers⟩
      ((p.interpret fun op => Prog.perform (SysOp.mount op)).bind k) := by
  induction hrun with
  | ret => exact h
  | @call op k out tree tree' tree₁ a hans _ ih =>
    have hstep : Whole.Answers emptyHost webSandbox webFiles ⟨w, tree, layers⟩ (.mount op) out
        ⟨w, tree', layers⟩ := ⟨rfl, hans, rfl⟩
    exact Loop.leads_call out hstep (ih h)

theorem leads_landlock {op : Program.Owned.Op Child.Landlock.Op}
    {layers₁ : Child.Landlock.World ℕ}
    {k : Program.Owned.Op.Out Child.Landlock.Op.Out op →
      Prog SysOp SysOp.Out (Point ⊕ Except Error CInt)}
    (out : Program.Owned.Op.Out Child.Landlock.Op.Out op)
    (hans : Child.Landlock.Answers webFiles layers op out layers₁)
    (h : webRun.Leads (Whole.Answers emptyHost webSandbox webFiles) P ⟨w, tree, layers₁⟩ (k out)) :
    webRun.Leads (Whole.Answers emptyHost webSandbox webFiles) P ⟨w, tree, layers⟩
      (.call (.landlock op) k) := by
  have hstep : Whole.Answers emptyHost webSandbox webFiles ⟨w, tree, layers⟩ (.landlock op) out
      ⟨w, tree, layers₁⟩ := ⟨rfl, rfl, hans⟩
  exact Loop.leads_call out hstep h

theorem web_exec : WebLeads fun _ q => ∃ exec envp k,
    q = .call (.process (.child (.execve exec envp))) k := by
  refine leads_process (.ok ()) rfl ?_
  refine leads_process (100 : CInt) rfl ?_
  refine leads_process (.ok ()) rfl ?_
  refine leads_process (.ok ()) rfl ?_
  refine leads_process (.ok ()) rfl ?_
  refine leads_process (webSandbox.prepare emptyHost) ⟨rfl, rfl⟩ ?_
  refine leads_process (.ok ()) (.inr ⟨id, rfl⟩) ?_
  refine leads_process (2 : CInt) (.inr ⟨id, rfl⟩) ?_
  refine leads_process (.ok ()) (.inr ⟨id, rfl⟩) ?_
  -- the two stages
  obtain ⟨tree, hmount⟩ : ∃ tree, Executes Child.Mount.Owned.Answers
      (Child.Mount.Owned.setup webPlan).run ⟨fun _ => none, []⟩ (.ok ()) tree :=
    @Child.Mount.executes_of_driven _ _ _ 3 _ (fun _ _ _ => rfl) rfl
  refine leads_mount hmount ?_
  refine leads_process (.ok ()) (.inr ⟨id, rfl⟩) ?_
  refine leads_landlock (.ok 6 : Except Errno Int64) ⟨rfl, rfl⟩ ?_
  refine leads_landlock (.ok 3 : Except Errno CInt) ⟨⟨by decide, rfl⟩, rfl⟩ ?_
  refine leads_landlock (.ok 4 : Except Errno CInt) ⟨⟨by decide, rfl⟩, 1, rfl, rfl⟩ ?_
  refine leads_landlock (.ok () : Except Errno Unit) ⟨1, rfl, rfl⟩ ?_
  refine leads_landlock () rfl ?_
  refine leads_landlock (.ok () : Except Errno Unit) rfl ?_
  refine leads_landlock (.ok () : Except Errno Unit) ⟨_, rfl, rfl⟩ ?_
  refine leads_landlock () rfl ?_
  -- what is left behind it
  refine leads_process (.ok ()) (.inr ⟨id, rfl⟩) ?_
  refine leads_process (.ok ()) (.inr ⟨id, rfl⟩) ?_
  refine leads_process (.ok ()) (.inr ⟨id, rfl⟩) ?_
  exact Loop.leads_here ⟨_, _, _, rfl⟩

theorem web_furnished : WebLeads fun w q =>
    (∃ exec envp k, q = .call (.process (.child (.execve exec envp))) k) ∧
      w.tree.state = changesOf webPlan ∧ w.layers.state.MayFs webFiles .readFile 2 ∧
      ¬ w.layers.state.MayFs webFiles .writeFile 2 := by
  obtain ⟨t, q, w, hafter, hanswered, exec, envp, k, rfl⟩ := web_exec
  obtain ⟨⟨plan, hplan, hmade⟩, -, -, hfs, -⟩ := exec_furnished web_build hafter hanswered
  refine ⟨t, _, w, hafter, hanswered, ⟨exec, envp, k, rfl⟩, ?_, ?_, ?_⟩
  · obtain rfl := Except.ok.inj hplan
    exact hmade
  · exact (hfs _ _).2 ⟨nofun, fun _ => ⟨"/srv", by decide, 1, by decide, by decide⟩⟩
  · intro h
    obtain ⟨path, hpath, -⟩ := ((hfs _ _).1 h).2 (.inl (by decide))
    cases hpath

end Web

end Pnut.Process
