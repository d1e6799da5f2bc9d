import Pnut.Lib.Collect
import Pnut.Sandbox.Landlock

/-!
# The Landlock plan

The minimal ABI comes from the lists alone, and the handled rights are all those of this ABI; so a
rule of a list has handled rights only, since its ABI is no later than the minimal one.
-/

namespace Pnut.Sandbox

open Child (LandlockSpec LandlockPathRule LandlockNetRule)
open Collect (exists_of_bind map_of_mapM)
open Flags (Within bit bits union within_bit within_bits bits_singleton union_congr)

theorem AccessFs.mem_fromAll {r : AccessFs} {abi : ℕ} : r ∈ fromAll abi ↔ r.since ≤ abi := by
  have hall : r ∈ all := by rcases r <;> decide
  unfold fromAll
  rw [List.mem_filter, decide_eq_true_iff, and_iff_right hall]

theorem AccessNet.mem_fromAll {r : AccessNet} {abi : ℕ} : r ∈ fromAll abi ↔ 4 ≤ abi := by
  have hall : r ∈ [bindTcp, connectTcp] := by rcases r <;> decide
  unfold fromAll
  rw [List.mem_filter, decide_eq_true_iff, and_iff_right hall]
  rfl

/-! ## One rule for each key of each list -/

section Rules

variable {K : Type}

/-- The rules of lists of keys, in their order. -/
def rulesOf (lists : List (List K × UInt64)) : List (K × UInt64) :=
  lists.flatMap fun c => c.1.map (·, c.2)

theorem mem_rulesOf {lists : List (List K × UInt64)} {rule : K × UInt64} :
    rule ∈ rulesOf lists ↔ ∃ keys, rule.1 ∈ keys ∧ (keys, rule.2) ∈ lists := by
  unfold rulesOf
  rw [List.mem_flatMap]
  constructor
  · rintro ⟨⟨keys, access⟩, hmem, hrule⟩
    obtain ⟨key, hkey, rfl⟩ := List.mem_map.1 hrule
    exact ⟨keys, hkey, hmem⟩
  · rintro ⟨keys, hkey, hmem⟩
    exact ⟨_, hmem, List.mem_map.2 ⟨_, hkey, rfl⟩⟩

/-- A key has the rights of the lists that name it. -/
theorem union_rulesOf [DecidableEq K] (lists : List (List K × UInt64)) (key : K) :
    union (((rulesOf lists).filter (·.1 = key)).map Prod.snd) =
      union ((lists.filter (key ∈ ·.1)).map Prod.snd) := by
  refine union_congr fun access => ?_
  simp only [List.mem_map, List.mem_filter, decide_eq_true_iff]
  constructor
  · rintro ⟨⟨key', access'⟩, ⟨hrule, rfl⟩, rfl⟩
    obtain ⟨keys, hkey, hmem⟩ := mem_rulesOf.1 hrule
    exact ⟨_, ⟨hmem, hkey⟩, rfl⟩
  · rintro ⟨⟨keys, access'⟩, ⟨hmem, hkey⟩, rfl⟩
    exact ⟨(key, access'), ⟨mem_rulesOf.2 ⟨keys, hkey, hmem⟩, rfl⟩, rfl⟩

theorem union_of_rules [DecidableEq K] {R : Type} {rules : List R} {key : R → K}
    {access : R → UInt64} {lists : List (List K × UInt64)}
    (h : rules.map (fun rule => (key rule, access rule)) = rulesOf lists) (k : K) :
    union ((rules.filter (key · = k)).map access) =
      union ((lists.filter (k ∈ ·.1)).map Prod.snd) := by
  rw [← union_rulesOf, ← h, List.filter_map, List.map_map]
  rfl

end Rules

namespace Landlock

variable {config : Landlock} {plan : LandlockSpec}

/-- The port lists, each with the rights of its rules. -/
def netCategories (config : Landlock) : List (List UInt16 × UInt64) :=
  [(config.allowedBind, netBind), (config.allowedConnect, netConnect)]

/-- The ABI has the rights of every list that is not empty. -/
def Supports (config : Landlock) (abi : ℕ) : Prop :=
  1 ≤ abi ∧
    (∀ c ∈ config.categories, c.1 ≠ [] → Within c.2 (bits (AccessFs.fromAll abi))) ∧
    ∀ c ∈ config.netCategories, c.1 ≠ [] → Within c.2 (bits (AccessNet.fromAll abi))

/-- The plan agrees with the lists, and its parts with each other. -/
structure Governs (config : Landlock) (plan : LandlockSpec) : Prop where
  pathRules : plan.pathRules.map (fun rule => (rule.path, rule.allowedAccess)) =
    rulesOf config.categories
  netRules : plan.netRules.map (fun rule => (rule.port, rule.allowedAccess)) =
    rulesOf config.netCategories
  /-- A path has the rights of the lists that name it, by all its rules. -/
  path_union : ∀ path,
    union ((plan.pathRules.filter (·.path = path)).map (·.allowedAccess)) =
      union ((config.categories.filter (path ∈ ·.1)).map Prod.snd)
  net_union : ∀ port,
    union ((plan.netRules.filter (·.port = port)).map (·.allowedAccess)) =
      union ((config.netCategories.filter (port ∈ ·.1)).map Prod.snd)
  /-- No rule has a right that is not handled. -/
  path_handled : ∀ rule ∈ plan.pathRules, Within rule.allowedAccess plan.ruleset.handledAccessFs
  net_handled : ∀ rule ∈ plan.netRules, Within rule.allowedAccess plan.ruleset.handledAccessNet
  /-- The ABI has every right that is handled. -/
  fs_known : Within plan.ruleset.handledAccessFs (bits (AccessFs.fromAll plan.minAbi.toNat))
  net_known : Within plan.ruleset.handledAccessNet (bits (AccessNet.fromAll plan.minAbi.toNat))
  least : IsLeast {abi | config.Supports abi} plan.minAbi.toNat
  bind_iff : Within netBind plan.ruleset.handledAccessNet ↔ config.allowedBind ≠ []
  connect_iff : Within netConnect plan.ruleset.handledAccessNet ↔ config.allowedConnect ≠ []

/-! ## The minimal ABI -/

/-- Writing needs every right of the first ABI but one. -/
theorem write_eq : bits (AccessFs.fromAll 1) &&& ~~~bit AccessFs.execute =
    bits ((AccessFs.fromAll 1).filter (· ≠ .execute)) := by decide +kernel

theorem within_write {abi : ℕ} (h : 1 ≤ abi) :
    Within (bits (AccessFs.fromAll 1) &&& ~~~bit AccessFs.execute)
      (bits (AccessFs.fromAll abi)) := by
  rw [write_eq, within_bits]
  intro r hr
  have hr' := AccessFs.mem_fromAll.1 (List.mem_of_mem_filter hr)
  exact AccessFs.mem_fromAll.2 (hr'.trans h)

theorem supports_iff {abi : ℕ} : config.Supports abi ↔
    1 ≤ abi ∧ (config.allowedRefer ≠ [] → 2 ≤ abi) ∧ (config.allowedTruncate ≠ [] → 3 ≤ abi) ∧
      (config.allowedIoctlDev ≠ [] → 5 ≤ abi) ∧ (config.allowedBind ≠ [] → 4 ≤ abi) ∧
      (config.allowedConnect ≠ [] → 4 ≤ abi) := by
  unfold Supports
  refine and_congr_right fun habi => ?_
  have hread : Within (bits [AccessFs.readFile, .readDir]) (bits (AccessFs.fromAll abi)) :=
    within_bits.2 (by simpa [AccessFs.mem_fromAll, AccessFs.since] using habi)
  have hexecute : Within (bits [AccessFs.execute, .readFile, .readDir])
      (bits (AccessFs.fromAll abi)) :=
    within_bits.2 (by simpa [AccessFs.mem_fromAll, AccessFs.since] using habi)
  have hone : ∀ r : AccessFs, Within (bits [r]) (bits (AccessFs.fromAll abi)) ↔ r.since ≤ abi := by
    intro r
    rw [bits_singleton, within_bit, AccessFs.mem_fromAll]
  have hnet : ∀ r : AccessNet, Within (bit r) (bits (AccessNet.fromAll abi)) ↔ 4 ≤ abi := by
    intro r
    rw [within_bit, AccessNet.mem_fromAll]
  unfold categories netCategories netBind netConnect
  simp only [List.forall_mem_cons, List.not_mem_nil, IsEmpty.forall_iff, hread, hexecute,
    within_write habi, hone, hnet, implies_true, true_and, and_true, AccessFs.since, and_assoc]

theorem computeAbi_cases (config : Landlock) :
    (config.allowedIoctlDev ≠ [] ∧ config.computeAbi.toNat = 5) ∨
      config.allowedIoctlDev = [] ∧
        ((config.allowedBind ≠ [] ∨ config.allowedConnect ≠ []) ∧ config.computeAbi.toNat = 4 ∨
          config.allowedBind = [] ∧ config.allowedConnect = [] ∧
            (config.allowedTruncate ≠ [] ∧ config.computeAbi.toNat = 3 ∨
              config.allowedTruncate = [] ∧
                (config.allowedRefer ≠ [] ∧ config.computeAbi.toNat = 2 ∨
                  config.allowedRefer = [] ∧ config.computeAbi.toNat = 1))) := by
  unfold computeAbi
  split_ifs <;> simp_all

theorem computeAbi_least (config : Landlock) :
    IsLeast {abi | config.Supports abi} config.computeAbi.toNat := by
  have hcases := config.computeAbi_cases
  refine ⟨supports_iff.2 ?_, fun abi habi => ?_⟩
  · grind
  · have hsupports := supports_iff.1 habi
    grind

/-- The handled rights are all those of the minimal ABI. -/
theorem handled_eq (config : Landlock) :
    computeHandledAccessFs config.computeAbi = bits (AccessFs.fromAll config.computeAbi.toNat) := by
  unfold computeAbi
  split_ifs <;> decide +kernel

/-- The kinds of network access that are handled. -/
def netRights (config : Landlock) : List AccessNet :=
  (if config.allowedBind = [] then [] else [.bindTcp]) ++
    if config.allowedConnect = [] then [] else [.connectTcp]

theorem mem_netRights {r : AccessNet} : r ∈ config.netRights ↔
    config.allowedBind ≠ [] ∧ r = .bindTcp ∨ config.allowedConnect ≠ [] ∧ r = .connectTcp := by
  unfold netRights
  split_ifs <;> simp [*]

theorem prepare_inv (h : config.prepare = .ok plan) :
    plan.pathRules.map (fun rule => (rule.path, rule.allowedAccess)) =
        rulesOf config.categories ∧
      plan.netRules.map (fun rule => (rule.port, rule.allowedAccess)) =
        rulesOf config.netCategories ∧
      plan.minAbi = config.computeAbi ∧
      plan.ruleset.handledAccessFs = bits (AccessFs.fromAll config.computeAbi.toNat) ∧
      plan.ruleset.handledAccessNet = bits config.netRights := by
  obtain ⟨pathRules, hrules, h⟩ := exists_of_bind h
  obtain rfl := Except.ok.inj h
  refine ⟨?_, ?_, rfl, config.handled_eq, ?_⟩
  · refine (map_of_mapM (fun rule r hr => ?_) hrules).trans (List.map_id _)
    obtain ⟨path, hpath, hr⟩ := exists_of_bind hr
    obtain rfl := Except.ok.inj hr
    rw [allocCstr_ok hpath]
    rfl
  · simp [rulesOf, netCategories, Function.comp_def]
  · unfold netRights
    rcases config.allowedBind with _ | ⟨port, ports⟩ <;>
      rcases config.allowedConnect with _ | ⟨port', ports'⟩ <;> rfl

/-- Every plan that is prepared agrees with its configuration. -/
theorem prepare_governs (h : config.prepare = .ok plan) : config.Governs plan := by
  obtain ⟨hpath, hnet, habi, hfs, hhandled⟩ := prepare_inv h
  have hleast := config.computeAbi_least
  rw [← habi] at hleast hfs
  obtain ⟨-, hpaths, hports⟩ := hleast.1
  refine ⟨hpath, hnet, union_of_rules hpath, union_of_rules hnet, fun rule hrule => ?_,
    fun rule hrule => ?_, ?_, ?_, hleast, ?_, ?_⟩
  · have hmem : (rule.path, rule.allowedAccess) ∈ rulesOf config.categories :=
      hpath ▸ List.mem_map_of_mem hrule
    obtain ⟨keys, hkey, hlist⟩ := mem_rulesOf.1 hmem
    rw [hfs]
    exact hpaths _ hlist (List.ne_nil_of_mem hkey)
  · have hmem : (rule.port, rule.allowedAccess) ∈ rulesOf config.netCategories :=
      hnet ▸ List.mem_map_of_mem hrule
    obtain ⟨keys, hkey, hlist⟩ := mem_rulesOf.1 hmem
    rw [hhandled]
    rcases List.mem_pair.1 hlist with heq | heq
    · obtain ⟨rfl, haccess⟩ : keys = config.allowedBind ∧ rule.allowedAccess = netBind :=
        Prod.mk.inj heq
      rw [haccess]
      exact within_bit.2 (mem_netRights.2 (.inl ⟨List.ne_nil_of_mem hkey, rfl⟩))
    · obtain ⟨rfl, haccess⟩ : keys = config.allowedConnect ∧ rule.allowedAccess = netConnect :=
        Prod.mk.inj heq
      rw [haccess]
      exact within_bit.2 (mem_netRights.2 (.inr ⟨List.ne_nil_of_mem hkey, rfl⟩))
  · rw [hfs]
    exact within_bits.2 fun r hr => hr
  · rw [hhandled]
    refine within_bits.2 fun r hr => ?_
    rcases mem_netRights.1 hr with ⟨hbind, rfl⟩ | ⟨hconnect, rfl⟩
    · exact within_bit.1 (hports _ (List.mem_pair.2 (.inl rfl)) hbind)
    · exact within_bit.1 (hports _ (List.mem_pair.2 (.inr rfl)) hconnect)
  · rw [hhandled]
    exact within_bit.trans (by simp [mem_netRights])
  · rw [hhandled]
    exact within_bit.trans (by simp [mem_netRights])

/-- A path that two lists name, and a port. -/
def serverConfig : Landlock := ⟨["/srv", "/srv"], ["/srv"], [], [], ["/tmp"], [80], [], []⟩

theorem serverConfig_governs : ∃ plan, serverConfig.prepare = .ok plan ∧
    serverConfig.Governs plan :=
  ⟨_, rfl, prepare_governs rfl⟩

end Landlock

end Pnut.Sandbox
