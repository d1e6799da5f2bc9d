import Pnut.Lib.Collect
import Pnut.Sandbox.Env
import Pnut.Proofs.Environ

/-!
# Whether the reserved storage suffices

The bytes always do. The parent counts the pointers by the keys to keep, or by what `vars_os`
returns; the child counts the entries it lets through, of which one key may have several, and of
which `vars_os` skips those without a `=` behind the first byte.
-/

namespace Pnut.Sandbox

open Child (CStr EnvBinding EnvSpec EQUALS ENOSPC)
open Child.Env (Included Fits encoded)
open Collect (exists_of_bind map_of_mapM)

theorem allocBytes_ok {s context : String} {c : CStr} (h : allocBytes s context = .ok c) :
    c.bytes = asBytes s := by
  unfold allocBytes at h
  split_ifs at h
  exact congrArg CStr.bytes (Except.ok.inj h).symm

theorem allocBinding_ok (kv : String × String) (b : EnvBinding) (h : allocBinding kv = .ok b) :
    b.key.bytes = asBytes kv.1 := by
  obtain ⟨key, hkey, h⟩ := exists_of_bind h
  obtain ⟨value, -, h⟩ := exists_of_bind h
  obtain rfl := Except.ok.inj h
  exact allocBytes_ok hkey

namespace Environment

/-- The entry is named by a key to set. -/
def Sets (e : Environment) (entry : CStr) : Prop :=
  ∃ kv ∈ e.set, entry.name = some (asBytes kv.1)

/-- The entry is named by a key to keep. -/
def Keeps (e : Environment) (entry : CStr) : Prop :=
  ∃ k ∈ e.keep, entry.name = some (asBytes k)

instance (e : Environment) : DecidablePred e.Sets := fun _ =>
  inferInstanceAs (Decidable (∃ kv ∈ _, _))

instance (e : Environment) : DecidablePred e.Keeps := fun _ =>
  inferInstanceAs (Decidable (∃ k ∈ _, _))

/-- The host's entries that come through are no more than those counted: with `clear`, the entries
of kept keys are no more than the keys to keep; without it, the entries that no key overrides are
no more than those `vars_os` returns. -/
def Counted (e : Environment) (environ : List CStr) : Prop :=
  if e.clear then
    (environ.filter fun entry => e.Keeps entry ∧ ¬ e.Sets entry).length ≤ e.keep.length
  else (environ.filter fun entry => ¬ e.Sets entry).length ≤ (environ.filter isVar).length

instance (e : Environment) (environ : List CStr) : Decidable (e.Counted environ) :=
  inferInstanceAs (Decidable (ite (e.clear = true) (_ ≤ _) (_ ≤ _)))

variable {e : Environment} {environ : Option (List CStr)} {spec : EnvSpec}

/-- The child is handed the configured keys, and the room that is counted for them. -/
theorem prepare_ok (h : e.prepare environ = .ok spec) :
    spec.clear = e.clear ∧ spec.keep.map CStr.bytes = e.keep.map asBytes ∧
      (spec.set.map fun b => b.key.bytes) = (e.set.map fun kv => asBytes kv.1) ∧
      spec.storage.envp.length =
        (if e.clear then e.keep.length else ((environ.getD []).filter isVar).length) +
          e.set.length + 1 ∧
      spec.storage.bytes.length = (spec.set.flatMap encoded).length := by
  obtain ⟨keep, hkeep, h⟩ := exists_of_bind h
  obtain ⟨set, hset, h⟩ := exists_of_bind h
  obtain rfl := Except.ok.inj h
  have hkeys := map_of_mapM (fun k c => allocBytes_ok (s := k) (c := c)) hkeep
  have hkvs := map_of_mapM allocBinding_ok hset
  have hkeepLength : keep.length = e.keep.length := by
    simpa only [List.length_map] using congrArg List.length hkeys
  have hsetLength : set.length = e.set.length := by
    simpa only [List.length_map] using congrArg List.length hkvs
  refine ⟨rfl, hkeys, hkvs, ?_, ?_⟩
  · rw [List.length_replicate, hkeepLength, hsetLength]
    unfold varsOs
    split_ifs <;> rfl
  · rw [List.length_replicate, List.length_flatMap]
    congr 1
    exact List.map_congr_left fun b _ => (Child.Env.length_encoded b).symm

theorem included_iff (h : e.prepare environ = .ok spec) (entry : CStr) :
    Included spec entry ↔ (e.clear → e.Keeps entry) ∧ ¬ e.Sets entry := by
  obtain ⟨hclear, hkeep, hset, -, -⟩ := prepare_ok h
  have hkeeps : (∃ key ∈ spec.keep, entry.name = some key.bytes) ↔ e.Keeps entry := by
    have hmem := congrArg (fun l => ∃ bytes ∈ l, entry.name = some bytes) hkeep
    unfold Keeps
    simpa only [List.mem_map, exists_exists_and_eq_and, eq_iff_iff] using hmem
  have hsets : (∃ b ∈ spec.set, entry.name = some b.key.bytes) ↔ e.Sets entry := by
    have hmem := congrArg (fun l => ∃ bytes ∈ l, entry.name = some bytes) hset
    unfold Sets
    simpa only [List.mem_map, exists_exists_and_eq_and, eq_iff_iff] using hmem
  unfold Included
  rw [hclear, hkeeps, ← hsets, and_comm]
  simp only [not_exists, not_and, ne_eq]

/-- The entries counted for the bindings and the NULL are the ones they take. -/
theorem fits_iff (h : e.prepare environ = .ok spec) :
    Fits spec (environ.getD []) ↔ e.Counted (environ.getD []) := by
  obtain ⟨-, -, hset, henvp, hbytes⟩ := prepare_ok h
  have hsetLength : spec.set.length = e.set.length := by
    simpa only [List.length_map] using congrArg List.length hset
  have hfilter : (environ.getD []).filter (fun entry => decide (Included spec entry)) =
      (environ.getD []).filter fun entry => (e.clear → e.Keeps entry) ∧ ¬ e.Sets entry :=
    List.filter_congr fun entry _ => decide_eq_decide.2 (included_iff h entry)
  unfold Fits Counted
  rw [hbytes, henvp, hsetLength, hfilter, and_iff_left le_rfl]
  by_cases hclear : e.clear = true
  · simp only [hclear, if_true, true_implies]
    omega
  · simp only [hclear, if_false, false_implies, true_and, Bool.false_eq_true]
    omega

/-- The child runs out of storage exactly when more entries come through than were counted. -/
theorem suffices_iff (h : e.prepare environ = .ok spec)
    (hset : ∀ kv ∈ e.set, EQUALS ∉ asBytes kv.1) :
    (Child.Env.prepare spec environ).run ≠ some (.error ENOSPC) ↔
      e.Counted (environ.getD []) := by
  have hkeys : ∀ b ∈ spec.set, EQUALS ∉ b.key.bytes := by
    have hmem := congrArg (fun l => ∀ bytes ∈ l, EQUALS ∉ bytes) (prepare_ok h).2.2.1
    rw [List.forall_mem_map, List.forall_mem_map] at hmem
    exact hmem.mpr hset
  rw [← fits_iff h, Child.Env.prepare_run spec environ hkeys]
  split_ifs with hfits
  · exact iff_of_true nofun hfits
  · exact iff_of_false (not_not_intro rfl) hfits

/-- `D=1`, a second `D=2`, and `E` without a `=`. -/
def oddEnviron : List CStr :=
  [⟨[68, 61, 49], by decide⟩, ⟨[68, 61, 50], by decide⟩, ⟨[69], by decide⟩]

/-- Two keys to keep, of which one has two entries. -/
def shellEnvironment : Environment := ⟨true, [("C", "3")], ["A", "D"], List.nodup_singleton _⟩

theorem suffices_shellEnvironment : ∃ spec,
    shellEnvironment.prepare (some oddEnviron) = .ok spec ∧
      (Child.Env.prepare spec (some oddEnviron)).run ≠ some (.error ENOSPC) := by
  obtain ⟨spec, h⟩ : ∃ spec, shellEnvironment.prepare (some oddEnviron) = .ok spec := ⟨_, rfl⟩
  exact ⟨spec, h, (suffices_iff h (List.forall_mem_singleton.2 (by decide +kernel))).2
    (by decide +kernel)⟩

/-- One key to keep reserves one pointer for two entries; without `clear`, nothing is reserved for
the entry without a `=`. -/
theorem odd_not_suffices :
    (∃ spec, prepare ⟨true, [], ["D"], List.nodup_nil⟩ (some oddEnviron) = .ok spec ∧
      (Child.Env.prepare spec (some oddEnviron)).run = some (.error ENOSPC)) ∧
    ∃ spec, prepare ⟨false, [], [], List.nodup_nil⟩ (some oddEnviron) = .ok spec ∧
      (Child.Env.prepare spec (some oddEnviron)).run = some (.error ENOSPC) := by
  exact ⟨⟨_, rfl, rfl⟩, _, rfl, rfl⟩

end Environment

end Pnut.Sandbox
