import Pnut.Child.Landlock
import Pnut.Proofs.Governed

/-!
# What a Landlock plan takes away

In the kernel, each layer of rules narrows what the process may do. The stage adds one layer, which
takes away what the configuration does not list, or it fails and adds none; and on the way it makes
no call that the kernel has to refuse for what the call says.
-/

namespace Pnut.Sandbox.Landlock

open Child (LandlockSpec)
open Flags (Within bit bits within_bit bits_singleton)

variable {config : Landlock}

/-! ## What a configuration lists -/

/-- The paths that are listed for a right. To write a file is to have every right of the first ABI
but the one to execute it. -/
def pathsFor (config : Landlock) : AccessFs → List String
  | .execute => config.allowedExecute
  | .readFile | .readDir => config.allowedRead ++ config.allowedWrite ++ config.allowedExecute
  | .refer => config.allowedRefer
  | .truncate => config.allowedTruncate
  | .ioctlDev => config.allowedIoctlDev
  | _ => config.allowedWrite

def portsFor (config : Landlock) : AccessNet → List UInt16
  | .bindTcp => config.allowedBind
  | .connectTcp => config.allowedConnect

/-- The rights that are taken away from the files that are not listed. -/
def Restricts (config : Landlock) (right : AccessFs) : Prop :=
  right.since ≤ config.computeAbi.toNat ∨ right = .refer

theorem mem_pathsFor {right : AccessFs} {path : String} : path ∈ config.pathsFor right ↔
    ∃ c ∈ config.categories, path ∈ c.1 ∧ Within (bit right) c.2 := by
  have hwrite : Within (bit right) (bits (AccessFs.fromAll 1) &&& ~~~bit AccessFs.execute) ↔
      right.since ≤ 1 ∧ right ≠ .execute := by
    rw [write_eq, within_bit, List.mem_filter, AccessFs.mem_fromAll, decide_eq_true_iff]
  unfold categories
  simp only [List.exists_mem_cons_iff, List.not_mem_nil, false_and, exists_false, or_false, hwrite,
    within_bit]
  rcases right <;> simp [pathsFor, AccessFs.since]

theorem mem_portsFor {right : AccessNet} {port : UInt16} : port ∈ config.portsFor right ↔
    ∃ c ∈ config.netCategories, port ∈ c.1 ∧ Within (bit right) c.2 := by
  unfold netCategories netBind netConnect
  simp only [List.exists_mem_cons_iff, List.not_mem_nil, false_and, exists_false, or_false,
    ← bits_singleton AccessNet.bindTcp, ← bits_singleton AccessNet.connectTcp, within_bit]
  rcases right <;> simp [portsFor]

theorem Supports.mono {abi abi' : ℕ} (h : config.Supports abi) (hle : abi ≤ abi') :
    config.Supports abi' := by
  have hsupports := supports_iff.1 h
  exact supports_iff.2 (by grind)

theorem access_ne_zero {c : List String × UInt64} (hc : c ∈ config.categories) : c.2 ≠ 0 := by
  have hall : ∀ c ∈ config.categories, c.2 ≠ 0 := by
    unfold categories
    simp only [List.forall_mem_cons, List.not_mem_nil, IsEmpty.forall_iff, implies_true, and_true]
    decide +kernel
  exact hall c hc

theorem netAccess_ne_zero {c : List UInt16 × UInt64} (hc : c ∈ config.netCategories) :
    c.2 ≠ 0 := by
  rcases List.mem_pair.1 hc with rfl | rfl <;>
  · show bit _ ≠ 0
    decide

end Pnut.Sandbox.Landlock

namespace Pnut.Child.Landlock

open Program Prog
open Flags (Within bit bits)
open Pnut.Sandbox (AccessFs AccessNet)

/-! ## The kernel -/

/-- Where the paths lead, and each file with the directories above it. -/
structure FileTree (File : Type) where
  resolve : String → Option File
  above : File → List File

structure Ruleset (File : Type) where
  handledAccessFs : UInt64
  handledAccessNet : UInt64
  pathRules : List (File × UInt64) := []
  netRules : List (UInt64 × UInt64) := []

inductive Object (File : Type) where
  | ruleset (ruleset : Ruleset File)
  | path (file : File)

/-- What Landlock is in this kernel, and the layers that the process is below. -/
structure Domain (File : Type) where
  abi : ℕ
  layers : List (Ruleset File)

abbrev World (File : Type) := Machine (Object File) (Domain File)

variable {File : Type} (fs : FileTree File)

namespace Ruleset

variable (layer : Ruleset File)

/-- A right that a layer handles is granted by the rules for the file and for the directories above
it. A layer that does not handle `refer` grants it to nothing. -/
def GrantsFs (right : AccessFs) (file : File) : Prop :=
  Within (bit right) layer.handledAccessFs ∨ right = .refer →
    ∃ rule ∈ layer.pathRules, rule.1 ∈ fs.above file ∧ Within (bit right) rule.2

def GrantsNet (right : AccessNet) (port : UInt16) : Prop :=
  Within (bit right) layer.handledAccessNet →
    ∃ rule ∈ layer.netRules, rule.1 = port.toUInt64 ∧ Within (bit right) rule.2

end Ruleset

namespace Object

def addPath (file : File) (access : UInt64) : Object File → Object File
  | .ruleset r => .ruleset { r with pathRules := r.pathRules ++ [(file, access)] }
  | object => object

def addNet (port access : UInt64) : Object File → Object File
  | .ruleset r => .ruleset { r with netRules := r.netRules ++ [(port, access)] }
  | object => object

end Object

namespace Domain

variable (domain : Domain File)

/-- What the process may do is what every layer grants. -/
def MayFs (right : AccessFs) (file : File) : Prop :=
  ∀ layer ∈ domain.layers, layer.GrantsFs fs right file

def MayNet (right : AccessNet) (port : UInt16) : Prop :=
  ∀ layer ∈ domain.layers, layer.GrantsNet right port

def restrict (layer : Ruleset File) : Domain File :=
  { domain with layers := domain.layers ++ [layer] }

end Domain

namespace World

variable (w : World File)

def restrict (layer : Ruleset File) : World File := { w with state := w.state.restrict layer }

def IsRuleset (fd : CInt) (P : Ruleset File → Prop) : Prop :=
  ∃ r, w.table fd = some (.ruleset r) ∧ P r

/-- The descriptors of a call are open, and what the call takes them for, and the kernel knows the
rights that it names. -/
def Ready : Op → Prop
  | .createRuleset attr => Within attr.handledAccessFs (bits (AccessFs.fromAll w.state.abi)) ∧
      Within attr.handledAccessNet (bits (AccessNet.fromAll w.state.abi))
  | .addPathRule rulesetFd access parentFd => access ≠ 0 ∧
      (w.IsRuleset rulesetFd fun r => Within access r.handledAccessFs) ∧
      ∃ file, w.table parentFd = some (.path file)
  | .addNetRule rulesetFd access _ => access ≠ 0 ∧
      w.IsRuleset rulesetFd fun r => Within access r.handledAccessNet
  | .restrictSelf rulesetFd => w.IsRuleset rulesetFd fun _ => True
  | _ => True

/-- How a call is answered. One that fails changes nothing. -/
def Answers : (op : Op) → Op.Out op → World File → Prop
  | .abiVersion, .error _, w' => w' = w
  | .abiVersion, .ok abi, w' => w' = w ∧ abi.toInt = w.state.abi
  | .createRuleset _, .error _, w' => w' = w
  | .createRuleset attr, .ok fd, w' => w.Fresh fd ∧ w' = w.give fd
      (.ruleset { handledAccessFs := attr.handledAccessFs
                  handledAccessNet := attr.handledAccessNet })
  | .openPath _, .error _, w' => w' = w
  | .openPath path, .ok fd, w' => w.Fresh fd ∧
      ∃ file, fs.resolve path = some file ∧ w' = w.give fd (.path file)
  | .addPathRule _ _ _, .error _, w' => w' = w
  | .addPathRule rulesetFd access parentFd, .ok (), w' =>
    ∃ file, w.table parentFd = some (.path file) ∧ w' = w.modify rulesetFd (.addPath file access)
  | .addNetRule _ _ _, .error _, w' => w' = w
  | .addNetRule rulesetFd access port, .ok (), w' => w' = w.modify rulesetFd (.addNet port access)
  | .restrictSelf _, .error _, w' => w' = w
  | .restrictSelf rulesetFd, .ok (), w' =>
    ∃ r, w.table rulesetFd = some (.ruleset r) ∧ w' = w.restrict r

end World

/-- The same, where descriptors are closed. -/
abbrev Answers := Program.Owned.Answers (World.Answers fs)

def discipline : Discipline Op Op.Out (World File) where
  allowed := World.Ready
  answers := World.Answers fs

/-! ## The layer of a plan -/

namespace Ruleset

def pathRulesOf (rules : List LandlockPathRule) : List (File × UInt64) :=
  rules.filterMap fun rule => (fs.resolve rule.path).map (·, rule.allowedAccess)

def netRulesOf (rules : List LandlockNetRule) : List (UInt64 × UInt64) :=
  rules.map fun rule => (rule.port.toUInt64, rule.allowedAccess)

def ofSpec (spec : LandlockSpec) : Ruleset File where
  handledAccessFs := spec.ruleset.handledAccessFs
  handledAccessNet := spec.ruleset.handledAccessNet
  pathRules := pathRulesOf fs spec.pathRules
  netRules := netRulesOf spec.netRules

end Ruleset

/-- The rules can be added to the ruleset, and there is something to each. -/
structure Sound (spec : LandlockSpec) : Prop where
  paths : ∀ rule ∈ spec.pathRules, rule.allowedAccess ≠ 0 ∧
    Within rule.allowedAccess spec.ruleset.handledAccessFs
  nets : ∀ rule ∈ spec.netRules, rule.allowedAccess ≠ 0 ∧
    Within rule.allowedAccess spec.ruleset.handledAccessNet
  known : ∀ abi : ℕ, spec.minAbi.toNat ≤ abi →
    Within spec.ruleset.handledAccessFs (bits (AccessFs.fromAll abi)) ∧
      Within spec.ruleset.handledAccessNet (bits (AccessNet.fromAll abi))

section Stage

variable {fs} {w : World File} {spec : LandlockSpec} {rulesetFd : CInt} {r : Ruleset File}

/-- The ruleset is open in the world, whatever its rules. -/
def Holds (rulesetFd : CInt) (w w' : World File) : Prop :=
  ∃ r, w' = w.give rulesetFd (.ruleset r)

theorem scoped_addPathRule {rule : LandlockPathRule} (hne : rule.allowedAccess ≠ 0)
    (haccess : Within rule.allowedAccess r.handledAccessFs) :
    Scoped (discipline fs) (fun w' _ => Holds rulesetFd w w')
      (fun w' _ => ∃ file, fs.resolve rule.path = some file ∧
        w' = w.give rulesetFd (.ruleset
          { r with pathRules := r.pathRules ++ [(file, rule.allowedAccess)] }))
      (w.give rulesetFd (.ruleset r)) (addPathRule rulesetFd rule) := by
  refine scoped_holding (scoped_lift (P := Holds rulesetFd w) ⟨trivial, ?_⟩)
  rintro (err | fd) w' hans
  · exact ⟨r, hans⟩
  obtain ⟨hfresh, file, hfile, rfl⟩ := hans
  obtain ⟨hfresh', hfd⟩ := hfresh.of_give
  refine ⟨hfresh.1, scoped_lift (P := Closing fd (Holds rulesetFd w)) ⟨⟨hne,
    ⟨r, Machine.give_of_open hfresh Machine.give_self, haccess⟩, file, Machine.give_self⟩, ?_⟩⟩
  rintro (err | ⟨⟩) w' hans
  · obtain rfl := hans
    exact closing_give hfresh ⟨r, rfl⟩
  · obtain ⟨file', hopen, rfl⟩ := hans
    obtain rfl : file = file' := by
      rw [Machine.give_self] at hopen
      exact Object.path.inj (Option.some.inj hopen)
    rw [Machine.modify_give_give hfd.symm]
    exact either_ok.2 (closing_give (hfresh'.give hfd) ⟨file, hfile, rfl⟩)

theorem scoped_pathRules : ∀ {rules : List LandlockPathRule} {r : Ruleset File},
    (∀ rule ∈ rules, rule.allowedAccess ≠ 0 ∧ Within rule.allowedAccess r.handledAccessFs) →
    Scoped (discipline fs) (fun w' _ => Holds rulesetFd w w')
      (fun w' _ => (∀ rule ∈ rules, (fs.resolve rule.path).isSome) ∧
        w' = w.give rulesetFd (.ruleset
          { r with pathRules := r.pathRules ++ Ruleset.pathRulesOf fs rules }))
      (w.give rulesetFd (.ruleset r)) (rules.forM (addPathRule rulesetFd))
  | [], r, _ => ⟨nofun, by simp [Ruleset.pathRulesOf]⟩
  | rule :: rules, r, hrules => by
    obtain ⟨⟨hne, haccess⟩, hrest⟩ := List.forall_mem_cons.1 hrules
    refine Scoped.bind (scoped_addPathRule hne haccess) ?_
    rintro _ ⟨⟩ ⟨file, hfile, rfl⟩
    refine (scoped_pathRules (r := { r with pathRules := r.pathRules ++
      [(file, rule.allowedAccess)] }) hrest).mono (fun _ _ h => h) ?_
    rintro w' ⟨⟩ ⟨hsome, rfl⟩
    refine ⟨List.forall_mem_cons.2 ⟨by simp [hfile], hsome⟩, ?_⟩
    simp [Ruleset.pathRulesOf, hfile]

theorem scoped_netRules : ∀ {rules : List LandlockNetRule} {r : Ruleset File},
    (∀ rule ∈ rules, rule.allowedAccess ≠ 0 ∧ Within rule.allowedAccess r.handledAccessNet) →
    Scoped (discipline fs) (fun w' _ => Holds rulesetFd w w')
      (fun w' _ => w' = w.give rulesetFd (.ruleset
        { r with netRules := r.netRules ++ Ruleset.netRulesOf rules }))
      (w.give rulesetFd (.ruleset r)) (rules.forM (addNetRule rulesetFd))
  | [], r, _ => by simp [Ruleset.netRulesOf]; rfl
  | rule :: rules, r, hrules => by
    obtain ⟨⟨hne, haccess⟩, hrest⟩ := List.forall_mem_cons.1 hrules
    refine Scoped.bind (scoped_lift (P := Holds rulesetFd w) (Q := fun w' _ =>
      w' = w.give rulesetFd (.ruleset { r with netRules := r.netRules ++
        [(rule.port.toUInt64, rule.allowedAccess)] })) ?_) ?_
    · refine ⟨⟨hne, r, Machine.give_self, haccess⟩, ?_⟩
      rintro (err | ⟨⟩) w' hans
      · exact ⟨r, hans⟩
      · exact Eq.trans hans Machine.modify_give
    · rintro _ ⟨⟩ rfl
      refine (scoped_netRules (r := { r with netRules := r.netRules ++
        [(rule.port.toUInt64, rule.allowedAccess)] }) hrest).mono (fun _ _ h => h) ?_
      rintro w' ⟨⟩ rfl
      simp [Ruleset.netRulesOf]

theorem plain_requireAbi (minAbi : UInt32) :
    Plain (discipline fs) (· = w) (fun w' _ => w' = w ∧ minAbi.toNat ≤ w.state.abi) w
      (requireAbi minAbi) := by
  unfold requireAbi
  split_ifs with hmin
  · refine Plain.bind (Q := fun w' (abi : Int64) => w' = w ∧ abi.toInt = w.state.abi)
      ⟨trivial, ?_⟩ ?_
    · rintro (err | abi) w' hans
      · exact hans
      · exact hans
    · rintro _ abi ⟨rfl, habi⟩
      have hint : (Int64.ofNat minAbi.toNat).toInt = minAbi.toNat :=
        Int64.toInt_ofNat_of_lt (minAbi.toNat_lt.trans (by norm_num))
      split_ifs with hlt
      · exact plain_throw rfl
      · refine plain_pure ⟨rfl, ?_⟩
        rw [Int64.lt_iff_toInt_lt, hint, habi] at hlt
        omega
  · obtain rfl : minAbi = 0 := not_not.1 hmin
    exact plain_pure ⟨rfl, Nat.zero_le _⟩

/-- The stage adds the layer of its plan, or leaves everything as it was. -/
theorem scoped_apply (hspec : Sound spec) :
    Scoped (discipline fs) (fun w' _ => w' = w)
      (fun w' _ => spec.minAbi.toNat ≤ w.state.abi ∧
        (∀ rule ∈ spec.pathRules, (fs.resolve rule.path).isSome) ∧
        w' = w.restrict (.ofSpec fs spec)) w (apply spec) := by
  refine Scoped.bind (scoped_lift (plain_requireAbi spec.minAbi)) ?_
  rintro w₁ ⟨⟩ ⟨hw₁, habi⟩
  subst w₁
  refine scoped_holding (scoped_lift (P := (· = w)) ⟨hspec.known _ habi, ?_⟩)
  rintro (err | rulesetFd) w' hans
  · exact hans
  obtain ⟨hfresh, rfl⟩ := hans
  have hclosing : ∀ w', Holds rulesetFd w w' → Closing rulesetFd (· = w) w' := by
    rintro _ ⟨r, rfl⟩
    exact closing_give hfresh rfl
  refine ⟨hfresh.1, Scoped.bind (Q := fun w' _ =>
    (∀ rule ∈ spec.pathRules, (fs.resolve rule.path).isSome) ∧
      w' = w.give rulesetFd (.ruleset (.ofSpec fs spec))) ?_ ?_⟩
  · refine Scoped.bind ((scoped_pathRules hspec.paths).mono (fun w' _ => hclosing w')
      fun _ _ h => h) ?_
    rintro _ ⟨⟩ ⟨hsome, rfl⟩
    refine (scoped_netRules hspec.nets).mono (fun w' _ => hclosing w') ?_
    rintro w' ⟨⟩ rfl
    exact ⟨hsome, by simp [Ruleset.ofSpec]⟩
  · rintro _ ⟨⟩ ⟨hsome, rfl⟩
    refine scoped_lift (P := Closing rulesetFd (· = w)) ⟨⟨_, Machine.give_self, trivial⟩, ?_⟩
    rintro (err | ⟨⟩) w' hans
    · exact hclosing w' ⟨_, hans⟩
    · obtain ⟨r, hopen, rfl⟩ := hans
      obtain rfl : Ruleset.ofSpec fs spec = r := by
        rw [Machine.give_self] at hopen
        exact Object.ruleset.inj (Option.some.inj hopen)
      have hfresh' : (w.restrict (.ofSpec fs spec)).Fresh rulesetFd := hfresh
      exact either_ok.2 (closing_give hfresh' ⟨habi, hsome, rfl⟩)

end Stage

/-! ## The plan of a configuration -/

section Prepared

variable {fs}

open Pnut.Sandbox.Landlock (mem_pathsFor mem_portsFor mem_netRights prepare_inv)

variable {config : Pnut.Sandbox.Landlock} {spec : LandlockSpec} {domain : Domain File}
  {w w' : World File}

theorem sound_of_prepared (h : config.prepare = .ok spec) : Sound spec := by
  have hgoverns := Pnut.Sandbox.Landlock.prepare_governs h
  obtain ⟨hpaths, hnets, habi, hfs, hnet⟩ := prepare_inv h
  refine ⟨fun rule hrule => ⟨?_, hgoverns.path_handled rule hrule⟩,
    fun rule hrule => ⟨?_, hgoverns.net_handled rule hrule⟩, fun abi hle => ⟨?_, ?_⟩⟩
  · have hmem : (rule.path, rule.allowedAccess) ∈ Pnut.Sandbox.rulesOf config.categories :=
      hpaths ▸ List.mem_map_of_mem hrule
    obtain ⟨keys, -, hlist⟩ := Pnut.Sandbox.mem_rulesOf.1 hmem
    exact Pnut.Sandbox.Landlock.access_ne_zero hlist
  · have hmem : (rule.port, rule.allowedAccess) ∈ Pnut.Sandbox.rulesOf config.netCategories :=
      hnets ▸ List.mem_map_of_mem hrule
    obtain ⟨keys, -, hlist⟩ := Pnut.Sandbox.mem_rulesOf.1 hmem
    exact Pnut.Sandbox.Landlock.netAccess_ne_zero hlist
  · rw [hfs, Flags.within_bits]
    intro right hright
    rw [habi] at hle
    exact AccessFs.mem_fromAll.2 ((AccessFs.mem_fromAll.1 hright).trans hle)
  · have hnewer : Within (bits (AccessNet.fromAll spec.minAbi.toNat))
        (bits (AccessNet.fromAll abi)) :=
      Flags.within_bits.2 fun right hright =>
        AccessNet.mem_fromAll.2 ((AccessNet.mem_fromAll.1 hright).trans hle)
    exact Flags.within_iff.2 fun i hi =>
      Flags.within_iff.1 hnewer i (Flags.within_iff.1 hgoverns.net_known i hi)

/-- The layer of the plan grants a file what the configuration lists for it. -/
theorem grantsFs_iff (h : config.prepare = .ok spec) {right : AccessFs} {file : File} :
    (Ruleset.ofSpec fs spec).GrantsFs fs right file ↔
      (config.Restricts right →
        ∃ path ∈ config.pathsFor right, ∃ f ∈ fs.above file, fs.resolve path = some f) := by
  obtain ⟨hpaths, -, -, hfs, -⟩ := prepare_inv h
  refine imp_congr ?_ ?_
  · refine or_congr_left ?_
    rw [Ruleset.ofSpec, hfs, Flags.within_bit, AccessFs.mem_fromAll]
  have hrules : ∀ path access, (∃ rule ∈ spec.pathRules, rule.path = path ∧
      rule.allowedAccess = access) ↔
        ∃ keys, path ∈ keys ∧ (keys, access) ∈ config.categories := by
    intro path access
    have hmem := @Pnut.Sandbox.mem_rulesOf _ config.categories (path, access)
    rw [← hmem, ← hpaths, List.mem_map]
    simp
  constructor
  · rintro ⟨⟨f, access⟩, hmem, habove, hright⟩
    obtain ⟨rule, hrule, heq⟩ := List.mem_filterMap.1 hmem
    obtain ⟨f', hresolve, heq⟩ := Option.map_eq_some_iff.1 heq
    obtain ⟨rfl, rfl⟩ := Prod.mk.inj heq
    obtain ⟨keys, hkey, hlist⟩ := (hrules _ _).1 ⟨rule, hrule, rfl, rfl⟩
    exact ⟨rule.path, mem_pathsFor.2 ⟨_, hlist, hkey, hright⟩, _, habove, hresolve⟩
  · rintro ⟨path, hpath, f, habove, hresolve⟩
    obtain ⟨⟨keys, access⟩, hlist, hkey, hright⟩ := mem_pathsFor.1 hpath
    obtain ⟨rule, hrule, rfl, rfl⟩ := (hrules _ _).2 ⟨keys, hkey, hlist⟩
    exact ⟨(f, rule.allowedAccess), List.mem_filterMap.2 ⟨rule, hrule, by simp [hresolve]⟩,
      habove, hright⟩

theorem grantsNet_iff (h : config.prepare = .ok spec) {right : AccessNet} {port : UInt16} :
    (Ruleset.ofSpec fs spec).GrantsNet right port ↔
      (config.portsFor right ≠ [] → port ∈ config.portsFor right) := by
  obtain ⟨-, hnets, -, -, hnet⟩ := prepare_inv h
  refine imp_congr ?_ ?_
  · rw [Ruleset.ofSpec, hnet, Flags.within_bit, mem_netRights]
    rcases right <;> simp [Pnut.Sandbox.Landlock.portsFor]
  have hrules : ∀ access, (∃ rule ∈ spec.netRules, rule.port = port ∧
      rule.allowedAccess = access) ↔
        ∃ keys, port ∈ keys ∧ (keys, access) ∈ config.netCategories := by
    intro access
    have hmem := @Pnut.Sandbox.mem_rulesOf _ config.netCategories (port, access)
    rw [← hmem, ← hnets, List.mem_map]
    simp
  rw [mem_portsFor]
  constructor
  · rintro ⟨_, hmem, hport, hright⟩
    obtain ⟨rule, hrule, rfl⟩ := List.mem_map.1 hmem
    obtain ⟨keys, hkey, hlist⟩ := (hrules _).1 ⟨rule, hrule, UInt16.toUInt64_inj.1 hport, rfl⟩
    exact ⟨_, hlist, hkey, hright⟩
  · rintro ⟨⟨keys, access⟩, hlist, hkey, hright⟩
    obtain ⟨rule, hrule, rfl, rfl⟩ := (hrules _).2 ⟨keys, hkey, hlist⟩
    exact ⟨_, List.mem_map_of_mem hrule, rfl, hright⟩

theorem mayFs_restrict {layer : Ruleset File} {right : AccessFs} {file : File} :
    (domain.restrict layer).MayFs fs right file ↔
      domain.MayFs fs right file ∧ layer.GrantsFs fs right file := by
  simp [Domain.MayFs, Domain.restrict, or_imp, forall_and]

theorem mayNet_restrict {layer : Ruleset File} {right : AccessNet} {port : UInt16} :
    (domain.restrict layer).MayNet right port ↔
      domain.MayNet right port ∧ layer.GrantsNet right port := by
  simp [Domain.MayNet, Domain.restrict, or_imp, forall_and]

/-- A domain with a layer more, which takes away what a configuration does not list. -/
structure Narrows (fs : FileTree File) (config : Pnut.Sandbox.Landlock)
    (before after : Domain File) : Prop where
  /-- The kernel has every right that the configuration speaks of. -/
  supports : config.Supports before.abi
  found : ∀ right, ∀ path ∈ config.pathsFor right, (fs.resolve path).isSome
  fs_iff : ∀ right file, after.MayFs fs right file ↔ before.MayFs fs right file ∧
    (config.Restricts right →
      ∃ path ∈ config.pathsFor right, ∃ f ∈ fs.above file, fs.resolve path = some f)
  net_iff : ∀ right port, after.MayNet right port ↔ before.MayNet right port ∧
    (config.portsFor right ≠ [] → port ∈ config.portsFor right)

theorem narrows_of_prepared (h : config.prepare = .ok spec)
    (habi : spec.minAbi.toNat ≤ domain.abi)
    (hsome : ∀ rule ∈ spec.pathRules, (fs.resolve rule.path).isSome) :
    Narrows fs config domain (domain.restrict (.ofSpec fs spec)) := by
  obtain ⟨hpaths, -, hmin, -, -⟩ := prepare_inv h
  refine ⟨?_, fun right path hpath => ?_, fun right file => ?_, fun right port => ?_⟩
  · rw [hmin] at habi
    exact config.computeAbi_least.1.mono habi
  · obtain ⟨⟨keys, access⟩, hlist, hkey, -⟩ := mem_pathsFor.1 hpath
    have hmem : (path, access) ∈ Pnut.Sandbox.rulesOf config.categories :=
      Pnut.Sandbox.mem_rulesOf.2 ⟨keys, hkey, hlist⟩
    rw [← hpaths] at hmem
    obtain ⟨rule, hrule, heq⟩ := List.mem_map.1 hmem
    exact (Prod.mk.inj heq).1 ▸ hsome rule hrule
  · rw [mayFs_restrict, grantsFs_iff h]
  · rw [mayNet_restrict, grantsNet_iff h]

/-- When the stage comes back, the process may do what it could do before and the configuration
lists, on a kernel that has every right of the configuration. -/
theorem apply_enforces (h : config.prepare = .ok spec)
    (hrun : Executes (Answers fs) (apply spec).run w (.ok ()) w') :
    Narrows fs config w.state w'.state := by
  obtain ⟨habi, hsome, rfl⟩ := Obeys.executes (scoped_apply (sound_of_prepared h)) hrun
  exact narrows_of_prepared h habi hsome

/-- Every call of the stage is made on descriptors that are open and of the kind that the call is
for, and names rights that the kernel knows, and the ruleset handles. Each descriptor that the stage
opens is closed, and a stage that fails has changed nothing. -/
theorem apply_calls (h : config.prepare = .ok spec) :
    (∀ t op k w', After (apply spec).run t (.call (.call op) k) → Answered (Answers fs) w t w' →
      World.Ready w' op) ∧
    (∀ t fd k w', After (apply spec).run t (.call (.close fd) k) → Answered (Answers fs) w t w' →
      (w'.table fd).isSome) ∧
    (∀ w', Executes (Answers fs) (apply spec).run w (.ok ()) w' → w'.table = w.table) ∧
    ∀ err w', Executes (Answers fs) (apply spec).run w (.error err) w' → w' = w := by
  have happly : Scoped (discipline fs) (fun w' _ => w' = w) _ w (apply spec) :=
    scoped_apply (sound_of_prepared h)
  refine ⟨fun t op k w' hafter hans => ?_, fun t fd k w' hafter hans => ?_, fun w' hrun => ?_,
    fun err w' hrun => ?_⟩
  · exact (Obeys.after happly hafter hans).1
  · exact (Obeys.after happly hafter hans).1
  · obtain ⟨-, -, rfl⟩ := Obeys.executes happly hrun
    rfl
  · have hend := Obeys.executes happly hrun
    exact hend

end Prepared

/-- A directory to read, and a port to bind. -/
def webConfig : Pnut.Sandbox.Landlock := ⟨["/srv"], [], [], [], [], [80], [], []⟩

/-- The root, the directory, and a file in it. -/
def webFiles : FileTree ℕ where
  resolve path := if path = "/srv" then some 1 else none
  above file := (List.range (file + 1)).reverse

def webWorld : World ℕ := ⟨fun _ => none, ⟨6, []⟩⟩

/-- Behind the stage, what is in the directory can be read, and nothing else is left. -/
theorem webConfig_enforced : ∃ (spec : LandlockSpec) (w' : World ℕ),
    webConfig.prepare = .ok spec ∧
    Executes (Answers webFiles) (apply spec).run webWorld (.ok ()) w' ∧
      w'.state.MayFs webFiles .readFile 2 ∧ ¬ w'.state.MayFs webFiles .writeFile 2 ∧
      w'.state.MayNet .bindTcp 80 ∧ ¬ w'.state.MayNet .bindTcp 81 := by
  obtain ⟨spec, hspec⟩ : ∃ spec, webConfig.prepare = .ok spec := ⟨_, rfl⟩
  obtain ⟨w', hrun⟩ : ∃ w', Executes (Answers webFiles) (apply spec).run webWorld (.ok ()) w' := by
    obtain rfl := Except.ok.inj hspec
    refine exists_executes_call (.ok 6 : Except Errno Int64) ⟨rfl, rfl⟩ ?_
    refine exists_executes_call (.ok 3 : Except Errno CInt) ⟨⟨by decide, rfl⟩, rfl⟩ ?_
    refine exists_executes_call (.ok 4 : Except Errno CInt) ⟨⟨by decide, rfl⟩, 1, rfl, rfl⟩ ?_
    refine exists_executes_call (.ok () : Except Errno Unit) ⟨1, rfl, rfl⟩ ?_
    refine exists_executes_call () rfl ?_
    refine exists_executes_call (.ok () : Except Errno Unit) rfl ?_
    refine exists_executes_call (.ok () : Except Errno Unit) ⟨_, rfl, rfl⟩ ?_
    refine exists_executes_call () rfl ?_
    exact ⟨_, .ret _ _⟩
  obtain ⟨-, -, hfs, hnet⟩ := apply_enforces hspec hrun
  refine ⟨spec, w', hspec, hrun, ?_, ?_, ?_, ?_⟩
  · exact (hfs _ _).2 ⟨nofun, fun _ => ⟨"/srv", by decide, 1, by decide, by decide⟩⟩
  · intro h
    obtain ⟨path, hpath, -⟩ := ((hfs _ _).1 h).2 (.inl (by decide))
    cases hpath
  · exact (hnet _ _).2 ⟨nofun, by decide⟩
  · intro h
    exact absurd (((hnet _ _).1 h).2 (by decide)) (by decide)

/-- The directory is not there, and the ruleset is dropped. -/
theorem webConfig_refused : ∃ (spec : LandlockSpec) (w' : World ℕ),
    webConfig.prepare = .ok spec ∧
    Executes (Answers webFiles) (apply spec).run webWorld (.error ENOENT) w' ∧ w' = webWorld := by
  obtain ⟨spec, hspec⟩ : ∃ spec, webConfig.prepare = .ok spec := ⟨_, rfl⟩
  obtain ⟨w', hrun⟩ : ∃ w',
      Executes (Answers webFiles) (apply spec).run webWorld (.error ENOENT) w' := by
    obtain rfl := Except.ok.inj hspec
    refine exists_executes_call (.ok 6 : Except Errno Int64) ⟨rfl, rfl⟩ ?_
    refine exists_executes_call (.ok 3 : Except Errno CInt) ⟨⟨by decide, rfl⟩, rfl⟩ ?_
    refine exists_executes_call (.error ENOENT : Except Errno CInt) rfl ?_
    refine exists_executes_call () rfl ?_
    exact ⟨_, .ret _ _⟩
  exact ⟨spec, w', hspec, hrun, (apply_calls hspec).2.2.2 _ _ hrun⟩

end Pnut.Child.Landlock
