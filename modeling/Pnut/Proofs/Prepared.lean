import Pnut.Lib.Collect
import Pnut.Sandbox.Prepare

/-!
# When a sandbox can be prepared

`Sandbox::prepare` hands on every text of the configuration as a C string, and looks at the sources
of bind mounts. It succeeds exactly when no text has a NUL in it and every source can be looked at,
whatever else is configured. What it returns is read off the configuration part by part.
-/

namespace Pnut.Sandbox

/-- The texts of an entry. -/
def MountEntry.texts : MountEntry → List String
  | .bind src dst _ => [src, dst]
  | .tmpfs dst _ _ _ => [dst]
  | .proc dst _ _ => [dst]
  | .mqueue dst => [dst]
  | .file dst _ _ => [dst]

/-- The source of a bind mount. -/
def MountEntry.source : MountEntry → Option String
  | .bind src _ _ => some src
  | _ => none

end Pnut.Sandbox

namespace Pnut.Config

open Child (CStr ChildSpec)
open Collect (exists_of_bind)
open Pnut.Sandbox (Environment Landlock MountEntry Sources Table allocBinding allocBytes allocCstr
  allocCstr_ok asBytes mountDst prepareEntries prepareTable trimSlashes)

/-! ## Texts without a NUL -/

def NulFree (s : String) : Prop := Char.ofNat 0 ∉ s.toList

instance (s : String) : Decidable (NulFree s) := by
  unfold NulFree
  infer_instance

theorem zero_mem_utf8EncodeChar (c : Char) :
    0 ∈ String.utf8EncodeChar c ↔ c = Char.ofNat 0 := by
  have hzero : c = Char.ofNat 0 ↔ c.val.toNat = 0 := by
    rw [← Char.val_inj, ← UInt32.toNat_inj]
    rfl
  rw [hzero, String.utf8EncodeChar]
  split_ifs <;>
    simp only [List.mem_cons, List.not_mem_nil, or_false, ← UInt8.toNat_inj, UInt8.toNat_ofNat',
      UInt8.toNat_zero] <;>
    omega

/-- Of the bytes of a text only those of a NUL are zero. -/
theorem zero_mem_asBytes {s : String} : 0 ∈ asBytes s ↔ ¬ NulFree s := by
  rw [asBytes, String.toUTF8_eq_toByteArray, ← String.utf8Encode_toList, List.utf8Encode]
  simp [zero_mem_utf8EncodeChar, NulFree]

theorem nulFree_trimSlashes {dst : String} : NulFree (trimSlashes dst) ↔ NulFree dst := by
  have hslash : Char.ofNat 0 ≠ '/' := by decide
  unfold NulFree trimSlashes
  rw [String.toList_ofList, not_iff_not]
  induction dst.toList with
  | nil => simp
  | cons c s ih =>
    by_cases hc : c = '/'
    · simp [hc, ih, hslash]
    · simp [hc]

/-! ## Steps that succeed -/

/-- The step succeeds. -/
def Succeeds {ε α : Type} (x : Except ε α) : Prop := ∃ a, x = .ok a

section Succeeds

variable {ε α β : Type}

theorem exists_eq_ok {x : Except ε α} : (∃ a, x = .ok a) ↔ Succeeds x := Iff.rfl

@[simp] theorem succeeds_ok {a : α} : Succeeds (.ok a : Except ε α) := ⟨a, rfl⟩

@[simp] theorem succeeds_pure {a : α} : Succeeds (pure a : Except ε α) := ⟨a, rfl⟩

@[simp] theorem not_succeeds_error {e : ε} : ¬ Succeeds (.error e : Except ε α) := by
  rintro ⟨a, h⟩
  cases h

theorem succeeds_bind {x : Except ε α} {f : α → Except ε β} :
    Succeeds (x >>= f) ↔ ∃ a, x = .ok a ∧ Succeeds (f a) := by
  rcases x with e | a
  · exact iff_of_false not_succeeds_error fun ⟨_, h, _⟩ => nomatch h
  · exact ⟨fun h => ⟨a, rfl, h⟩, fun ⟨_, h, hf⟩ => Except.ok.inj h ▸ hf⟩

/-- A second step that always succeeds. -/
theorem succeeds_bind_pure {x : Except ε α} {f : α → β} :
    Succeeds (x >>= fun a => pure (f a)) ↔ Succeeds x := by
  simp only [succeeds_bind, succeeds_pure, and_true, exists_eq_ok]

theorem succeeds_map {x : Except ε α} {f : α → β} : Succeeds (f <$> x) ↔ Succeeds x := by
  cases x <;> simp [Functor.map, Except.map]

theorem succeeds_mapM {f : α → Except ε β} {as : List α} :
    Succeeds (as.mapM f) ↔ ∀ a ∈ as, Succeeds (f a) := by
  induction as with
  | nil => simp
  | cons a as ih =>
    rw [List.mapM_cons, List.forall_mem_cons, ← ih, succeeds_bind]
    simp only [succeeds_bind_pure]
    exact exists_and_right

theorem succeeds_option {f : α → Except ε β} {o : Option α} :
    Succeeds (o.mapM f) ↔ ∀ a ∈ o, Succeeds (f a) := by
  cases o with
  | none => simp
  | some a => simp [succeeds_map]

end Succeeds

theorem allocCstr_eq_ok {s context t : String} :
    allocCstr s context = .ok t ↔ NulFree s ∧ t = s := by
  unfold allocCstr NulFree
  split_ifs with h <;> simp [h, eq_comm]

theorem succeeds_allocCstr {s context : String} : Succeeds (allocCstr s context) ↔ NulFree s := by
  simp [Succeeds, allocCstr_eq_ok]

theorem succeeds_allocBytes {s context : String} : Succeeds (allocBytes s context) ↔ NulFree s := by
  rw [← not_iff_not, ← zero_mem_asBytes]
  unfold allocBytes
  split_ifs with h <;> simp [h]

/-! ## The parts -/

section Parts

variable {sources : Sources}

theorem succeeds_prepareArgs (args : List String) :
    ∀ i, Succeeds (prepareArgs i args) ↔ ∀ arg ∈ args, NulFree arg := by
  induction args with
  | nil => simp [prepareArgs]
  | cons arg args ih =>
    intro i
    rw [prepareArgs, List.forall_mem_cons, succeeds_bind]
    simp only [succeeds_bind_pure, ih, exists_and_right]
    exact and_congr_left' succeeds_allocCstr

theorem succeeds_command {command : Command} (h : command.args ≠ []) :
    Succeeds (command.prepare h) ↔ ∀ s ∈ command.args ++ command.argv0.toList, NulFree s := by
  obtain ⟨args, argv0, cwd⟩ := command
  obtain ⟨arg, args, rfl⟩ := List.exists_cons_of_ne_nil h
  unfold Command.prepare Command.prepareArgv0
  cases argv0 with
  | none =>
    simp only [succeeds_bind, allocCstr_eq_ok, succeeds_pure, exists_eq_ok, succeeds_prepareArgs,
      and_assoc, exists_and_left, exists_eq_left, and_true, List.head_cons, List.tail_cons]
    simp
  | some argv0 =>
    simp only [succeeds_bind, allocCstr_eq_ok, succeeds_pure, exists_eq_ok, succeeds_prepareArgs,
      and_assoc, exists_and_left, exists_eq_left, and_true, List.head_cons, List.tail_cons]
    simp [or_imp, forall_and, and_comm]

theorem succeeds_env {e : Environment} {environ : Option (List CStr)} :
    Succeeds (e.prepare environ) ↔
      ∀ s ∈ e.keep ++ e.set.flatMap fun kv => [kv.1, kv.2], NulFree s := by
  have hbinding (kv : String × String) :
      Succeeds (allocBinding kv) ↔ NulFree kv.1 ∧ NulFree kv.2 := by
    unfold allocBinding
    simp only [succeeds_bind, succeeds_pure, and_true, exists_eq_ok, exists_and_right,
      succeeds_allocBytes]
  unfold Environment.prepare
  simp only [succeeds_bind, succeeds_pure, and_true, exists_eq_ok, exists_and_right, succeeds_mapM,
    succeeds_allocBytes, hbinding]
  simp [List.forall_mem_flatMap, List.forall_mem_append, -List.mem_append, -List.mem_flatMap]

theorem succeeds_entry {entry : MountEntry} :
    Succeeds (entry.prepare sources) ↔
      (∀ s ∈ entry.texts, NulFree s) ∧ ∀ src ∈ entry.source, Succeeds (sources.isDir src) := by
  cases entry with
  | bind src dst readOnly =>
    unfold MountEntry.prepare mountDst
    cases h : sources.isDir src <;>
      simp [succeeds_bind, succeeds_map, succeeds_allocCstr, allocCstr_eq_ok, nulFree_trimSlashes,
        MountEntry.texts, MountEntry.source, h]
  | _ =>
    simp [MountEntry.prepare, mountDst, succeeds_map, succeeds_allocCstr, nulFree_trimSlashes,
      MountEntry.texts, MountEntry.source]

theorem succeeds_table {table : Table} :
    Succeeds (prepareTable sources table) ↔ ∀ entry ∈ table, Succeeds (entry.prepare sources) := by
  unfold prepareTable
  rw [succeeds_bind_pure]
  induction table with
  | nil => simp [prepareEntries]
  | cons entry table ih =>
    rw [prepareEntries, List.forall_mem_cons, ← ih, succeeds_bind]
    simp only [succeeds_bind_pure]
    exact exists_and_right

theorem succeeds_landlock {config : Landlock} :
    Succeeds config.prepare ↔ ∀ s ∈ config.categories.flatMap Prod.fst, NulFree s := by
  have hrule (rule : String × UInt64) : Succeeds (Landlock.pathRule rule) ↔ NulFree rule.1 := by
    unfold Landlock.pathRule
    rw [succeeds_bind_pure, succeeds_allocCstr]
  unfold Landlock.prepare
  simp only [succeeds_bind_pure, succeeds_mapM, hrule]
  simp only [List.forall_mem_flatMap, List.forall_mem_map]

end Parts

/-! ## The sandbox -/

theorem succeeds_hostname {ns : Namespaces} (h : ns.hostname.isSome → ns.uts = true) :
    Succeeds ns.prepareHostname ↔ ∀ s ∈ ns.hostname.toList, NulFree s := by
  unfold Namespaces.prepareHostname
  cases hname : ns.hostname with
  | none => simp
  | some hostname =>
    have huts := h (by simp [hname])
    simp [huts, succeeds_map, succeeds_allocCstr]

theorem succeeds_mounts {sources : Sources} {mounts : Table} :
    Succeeds (prepareMounts sources mounts) ↔ (∀ s ∈ mounts.flatMap (·.texts), NulFree s) ∧
      ∀ entry ∈ mounts, ∀ src ∈ entry.source, Succeeds (sources.isDir src) := by
  unfold prepareMounts
  cases mounts with
  | nil => simp
  | cons entry mounts =>
    rw [if_neg (by simp), succeeds_map, succeeds_table]
    simp only [succeeds_entry, List.forall_mem_flatMap, forall_and]

section Sandbox

variable {C : Type} [Pnut.Sandbox.Capability C] {sandbox : Sandbox C} {host : Host}

/-- All that is handed on as a C string. -/
def Sandbox.texts (sandbox : Sandbox C) : List String :=
  (sandbox.command.args ++ sandbox.command.argv0.toList) ++
    sandbox.command.cwd :: sandbox.namespaces.hostname.toList ++
    sandbox.env.elim [] (fun e => e.keep ++ e.set.flatMap fun kv => [kv.1, kv.2]) ++
    sandbox.mounts.flatMap (·.texts) ++
    sandbox.landlock.elim [] (fun config => config.categories.flatMap Prod.fst)

theorem forall_mem_elim {α β : Type} {P : β → Prop} {o : Option α} {f : α → List β} :
    (∀ b ∈ o.elim [] f, P b) ↔ ∀ a ∈ o, ∀ b ∈ f a, P b := by
  cases o <;> simp

/-- A sandbox can be prepared exactly when no text in it has a NUL, and every source of a bind mount
can be looked at. -/
theorem prepare_succeeds_iff : Succeeds (sandbox.prepare host) ↔
    (∀ s ∈ sandbox.texts, NulFree s) ∧
      ∀ entry ∈ sandbox.mounts, ∀ src ∈ entry.source, Succeeds (host.sources.isDir src) := by
  unfold Sandbox.prepare
  simp only [succeeds_bind, succeeds_pure, and_true, exists_eq_ok, exists_and_right,
    succeeds_command, succeeds_allocCstr, succeeds_option, succeeds_env, succeeds_landlock,
    succeeds_hostname sandbox.uts_of_hostname, succeeds_mounts, Sandbox.texts,
    List.forall_mem_append, List.forall_mem_cons, forall_mem_elim]
  tauto

/-! What is handed on. -/

theorem prepareArgs_ok {args args' : List String} :
    ∀ {i : ℕ}, prepareArgs i args = .ok args' → args' = args := by
  induction args generalizing args' with
  | nil =>
    rintro i ⟨⟩
    rfl
  | cons arg args ih =>
    intro i h
    obtain ⟨arg', harg, h⟩ := exists_of_bind h
    obtain ⟨rest, hrest, h⟩ := exists_of_bind h
    obtain rfl := Except.ok.inj h
    rw [allocCstr_ok harg, ih hrest]

theorem command_ok {command : Command} {hargs : command.args ≠ []} {exec : Child.ExecSpec}
    (h : command.prepare hargs = .ok exec) :
    exec = ⟨command.args.head hargs,
      command.argv0.getD (command.args.head hargs) :: command.args.tail⟩ := by
  obtain ⟨path, hpath, h⟩ := exists_of_bind h
  obtain ⟨argv0, hargv0, h⟩ := exists_of_bind h
  obtain ⟨args, hrest, h⟩ := exists_of_bind h
  obtain rfl := Except.ok.inj h
  obtain rfl := allocCstr_ok hpath
  obtain rfl := prepareArgs_ok hrest
  unfold Command.prepareArgv0 at hargv0
  cases hoverride : command.argv0 <;>
  · rw [hoverride] at hargv0
    obtain rfl := allocCstr_ok hargv0
    rfl

theorem hostname_ok {ns : Namespaces} {hostname : Option String}
    (huts : ns.hostname.isSome → ns.uts = true) (h : ns.prepareHostname = .ok hostname) :
    hostname = ns.hostname := by
  unfold Namespaces.prepareHostname at h
  cases hname : ns.hostname with
  | none =>
    rw [hname] at h
    exact (Except.ok.inj h).symm
  | some name =>
    have hns := huts (by simp [hname])
    simp only [hname, hns, if_true] at h
    cases halloc : allocCstr name "hostname" with
    | error e =>
      rw [halloc] at h
      cases h
    | ok name' =>
      rw [halloc] at h
      rw [← Except.ok.inj h, allocCstr_ok halloc]

/-- What the child is handed, but for the status pipe and the byte of the parent. -/
def specOf (sandbox : Sandbox C) (env : Option Child.EnvSpec) (mounts : Option Child.MountPlan)
    (landlock : Option Child.LandlockSpec) : ChildSpec where
  syncFd := none
  statusFd := none
  completion := none
  process := sandbox.process.prepare
  mounts := mounts
  hostname := sandbox.namespaces.hostname
  bringUpLoopback := sandbox.namespaces.net
  env := env
  rlimits := sandbox.rlimits.map (·.prepare)
  landlock := landlock
  caps := sandbox.capabilities.map (·.prepare)
  fds := (sandbox.fd.map (·.prepare)).getD default
  seccomp := sandbox.seccompProgram.map prepareSeccomp
  cwd := some sandbox.command.cwd
  exec := ⟨sandbox.command.args.head sandbox.args_ne_nil,
    sandbox.command.argv0.getD (sandbox.command.args.head sandbox.args_ne_nil) ::
      sandbox.command.args.tail⟩

theorem prepare_ok {spec : ChildSpec} (h : sandbox.prepare host = .ok spec) :
    ∃ env mounts landlock, sandbox.env.mapM (·.prepare host.environ) = .ok env ∧
      prepareMounts host.sources sandbox.mounts = .ok mounts ∧
      sandbox.landlock.mapM (·.prepare) = .ok landlock ∧
      spec = specOf sandbox env mounts landlock := by
  obtain ⟨exec, hexec, h⟩ := exists_of_bind h
  obtain ⟨cwd, hcwd, h⟩ := exists_of_bind h
  obtain ⟨hostname, hhostname, h⟩ := exists_of_bind h
  obtain ⟨env, henv, h⟩ := exists_of_bind h
  obtain ⟨mounts, hmounts, h⟩ := exists_of_bind h
  obtain ⟨landlock, hlandlock, h⟩ := exists_of_bind h
  obtain rfl := Except.ok.inj h
  obtain rfl := command_ok hexec
  obtain rfl := allocCstr_ok hcwd
  obtain rfl := hostname_ok sandbox.uts_of_hostname hhostname
  exact ⟨env, mounts, landlock, henv, hmounts, hlandlock, rfl⟩

end Sandbox

/-! ## The builder -/

section Build

open Pnut.Sandbox (FileSystem FdMapping checkDestinations prepareProgram validateMounts)

variable {C : Type} {b : Build} {pest : Kafel.Pest} {prelude : List Char} {fs : FileSystem}
  {sources : Sources} {builder : SandboxBuilder C} {sandbox : Sandbox C}

/-- What `try_from` asks of a builder, but for its policy. -/
structure SandboxBuilder.Valid (builder : SandboxBuilder C) (sources : Sources) : Prop where
  command : builder.command.args ≠ []
  uidMap : builder.uidMap.isSome
  gidMap : builder.gidMap.isSome
  hostname : builder.namespaces.hostname.isSome → builder.namespaces.uts = true
  mounts : builder.mounts ≠ [] → builder.namespaces.mount = true
  execve : builder.mode = .execve → builder.namespaces.pid = false
  bindSources : ∀ entry ∈ builder.mounts, ∀ src ∈ entry.source, sources.pathExists src = true
  mappings : (((builder.fd.map (·.mappings)).getD []).map FdMapping.dst).Nodup

/-- The sandbox is configured as its builder is. -/
structure Sandbox.Of (sandbox : Sandbox C) (builder : SandboxBuilder C) : Prop where
  mode : sandbox.mode = builder.mode
  command : sandbox.command = builder.command
  process : sandbox.process = builder.process
  namespaces : sandbox.namespaces = builder.namespaces
  mounts : sandbox.mounts = builder.mounts
  uidMap : builder.uidMap = some sandbox.uidMap
  gidMap : builder.gidMap = some sandbox.gidMap
  env : sandbox.env = builder.env
  rlimits : sandbox.rlimits = builder.rlimits
  landlock : sandbox.landlock = builder.landlock
  capabilities : sandbox.capabilities = builder.capabilities
  fd : sandbox.fd = builder.fd

theorem required_eq_ok {α : Type} {x : Option α} {message : String} {a : α}
    (h : required x message = .ok a) : x = some a := by
  cases x with
  | none => cases h
  | some a => rw [Except.ok.inj h]

theorem build_ok (h : builder.build b pest prelude fs sources = .ok sandbox) :
    sandbox.Of builder ∧
      prepareProgram b pest prelude fs builder.seccomp builder.namespaces.nested =
        .ok sandbox.seccompProgram := by
  obtain ⟨hargs, -, h⟩ := exists_of_bind h
  obtain ⟨uidMap, huid, h⟩ := exists_of_bind h
  obtain ⟨gidMap, hgid, h⟩ := exists_of_bind h
  obtain ⟨huts, -, h⟩ := exists_of_bind h
  obtain ⟨hmount, -, h⟩ := exists_of_bind h
  obtain ⟨hpid, -, h⟩ := exists_of_bind h
  obtain ⟨⟨⟩, -, h⟩ := exists_of_bind h
  obtain ⟨⟨⟩, -, h⟩ := exists_of_bind h
  obtain ⟨program, hprogram, h⟩ := exists_of_bind h
  obtain rfl := Except.ok.inj h
  refine ⟨⟨rfl, rfl, rfl, rfl, rfl, required_eq_ok huid, required_eq_ok hgid, rfl, rfl, rfl, rfl,
    rfl⟩, ?_⟩
  cases hp : prepareProgram b pest prelude fs builder.seccomp builder.namespaces.nested with
  | error e =>
    rw [hp] at hprogram
    cases hprogram
  | ok program' =>
    rw [hp] at hprogram
    obtain rfl := Except.ok.inj hprogram
    rfl

end Build

end Pnut.Config
