import Pnut.Child.Completion

/-!
# The one completion record

However the writes of `emit` are cut, a run of it that succeeds writes the whole array. The decoder
looks at every byte of it, so it accepts nothing else.
-/

namespace Pnut.Child

open Program

/-! ## Integers -/

theorem u16FromLeBytes_eq_iff {b₀ b₁ : UInt8} {v : UInt16} :
    u16FromLeBytes b₀ b₁ = v ↔ [b₀, b₁] = u16ToLeBytes v := by
  have h₀ := b₀.toNat_lt
  have h₁ := b₁.toNat_lt
  have hv := v.toNat_lt
  unfold u16FromLeBytes u16ToLeBytes
  simp only [List.cons.injEq, and_true, ← UInt8.toNat_inj, ← UInt16.toNat_inj, UInt16.toNat_ofNat',
    UInt16.toNat_toUInt8, UInt16.toNat_shiftRight, Nat.shiftRight_eq_div_pow]
  simp only [UInt16.reduceToNat, Nat.reduceMod, Nat.reducePow] at *
  omega

theorem u32FromLeBytes_eq_iff {b₀ b₁ b₂ b₃ : UInt8} {v : UInt32} :
    u32FromLeBytes b₀ b₁ b₂ b₃ = v ↔ [b₀, b₁, b₂, b₃] = u32ToLeBytes v := by
  have h₀ := b₀.toNat_lt
  have h₁ := b₁.toNat_lt
  have h₂ := b₂.toNat_lt
  have h₃ := b₃.toNat_lt
  have hv := v.toNat_lt
  unfold u32FromLeBytes u32ToLeBytes
  simp only [List.cons.injEq, and_true, ← UInt8.toNat_inj, ← UInt32.toNat_inj, UInt32.toNat_ofNat',
    UInt32.toNat_toUInt8, UInt32.toNat_shiftRight, Nat.shiftRight_eq_div_pow]
  simp only [UInt32.reduceToNat, Nat.reduceMod, Nat.reducePow] at *
  omega

/-! ## Writing -/

/-- What a call took for a descriptor. -/
def takenBy (fd : CInt) : Event IoOp.Out → List UInt8
  | ⟨.write fd' buf, .ok ret⟩ => if fd' = fd then buf.take ret else []
  | _ => []

/-- The bytes that the calls of a run took for a descriptor. -/
def taken (fd : CInt) (t : List (Event IoOp.Out)) : List UInt8 := t.flatMap (takenBy fd)

theorem taken_append (fd : CInt) (t t' : List (Event IoOp.Out)) :
    taken fd (t ++ t') = taken fd t ++ taken fd t' := List.flatMap_append

section WriteAll

variable {fd : CInt} {buf : List UInt8} {written : ℕ} {t : List (Event IoOp.Out)}

/-- Up to its next point, the loop has written the bytes between the two points; it succeeds when
none are left. -/
theorem writeAllLoop_inv {next : ℕ ⊕ Except Errno Unit}
    (h : Runs IoOp.Final (writeAllLoop fd buf written) t (.returned next)) :
    (∀ written', next = .inl written' →
        taken fd t ++ buf.drop written' = buf.drop written) ∧
      (next = .inr (.ok ()) → taken fd t = [] ∧ buf.drop written = []) := by
  unfold writeAllLoop at h
  split_ifs at h with hlt
  · rcases h.call_inv with ⟨err | ret, t', rfl, hk⟩ | ⟨-, heq, -⟩
    · have hk' : Runs IoOp.Final (if err = EINTR then pure (.inl written)
          else pure (.inr (.error err)) : Prog IoOp IoOp.Out _) t' (.returned next) := hk
      split_ifs at hk'
      · obtain ⟨rfl, heq⟩ := hk'.ret_inv
        obtain rfl := Ending.returned.inj heq
        refine ⟨fun written' heq => ?_, nofun⟩
        obtain rfl := Sum.inl.inj heq
        rfl
      · obtain ⟨rfl, heq⟩ := hk'.ret_inv
        obtain rfl := Ending.returned.inj heq
        exact ⟨nofun, nofun⟩
    · have hk' : Runs IoOp.Final (if 0 < ret.val then pure (.inl (written + ret))
          else pure (.inr (.error EPIPE)) : Prog IoOp IoOp.Out _) t' (.returned next) := hk
      split_ifs at hk'
      · obtain ⟨rfl, heq⟩ := hk'.ret_inv
        obtain rfl := Ending.returned.inj heq
        refine ⟨fun written' heq => ?_, nofun⟩
        obtain rfl := Sum.inl.inj heq
        have htaken : taken fd [⟨.write fd (buf.drop written), .ok ret⟩] =
            (buf.drop written).take ret := by
          show (if fd = fd then _ else []) ++ [] = _
          rw [if_pos rfl, List.append_nil]
        rw [htaken, ← List.drop_drop, List.take_append_drop]
      · obtain ⟨rfl, heq⟩ := hk'.ret_inv
        obtain rfl := Ending.returned.inj heq
        exact ⟨nofun, nofun⟩
    · cases heq
  · obtain ⟨rfl, heq⟩ := Runs.ret_inv h
    obtain rfl := Ending.returned.inj heq
    exact ⟨nofun, fun _ => ⟨rfl, List.drop_of_length_le (not_lt.1 hlt)⟩⟩

/-- However the writes are cut, and however often one is interrupted, `write_all` writes what is
left of the buffer. -/
theorem writeAll_taken (h : LoopRuns IoOp.Final (writeAllLoop fd buf) (writeAllLoop fd buf written)
    t (.returned (.ok ()))) : taken fd t = buf.drop written := by
  generalize hp : writeAllLoop fd buf written = p at h
  generalize he : Ending.returned (Except.ok ()) = e at h
  induction h generalizing written with
  | returned h =>
    subst hp
    obtain rfl := Ending.returned.inj he
    obtain ⟨htaken, hdrop⟩ := (writeAllLoop_inv h).2 rfl
    rw [htaken, hdrop]
  | left => cases he
  | again h _ ih =>
    subst hp
    rw [taken_append, ih rfl he]
    exact (writeAllLoop_inv h).1 _ rfl

/-- A kernel that takes every write whole lets `write_all` succeed. -/
theorem writeAll_runs (fd : CInt) (buf : List UInt8) :
    ∃ t, LoopRuns IoOp.Final (writeAllLoop fd buf) (writeAllLoop fd buf 0) t
      (.returned (.ok ())) := by
  have hdone : LoopRuns IoOp.Final (writeAllLoop fd buf) (writeAllLoop fd buf buf.length) []
      (.returned (.ok ())) := by
    refine .returned ?_
    unfold writeAllLoop
    rw [if_neg (lt_irrefl _)]
    exact .ret _
  by_cases hlen : 0 < buf.length
  · have hfirst : Runs IoOp.Final (writeAllLoop fd buf 0)
        [⟨.write fd (buf.drop 0), .ok (Fin.last buf.length)⟩] (.returned (.inl buf.length)) := by
      unfold writeAllLoop
      rw [if_pos hlen]
      refine .call _ _ _ ?_
      show Runs IoOp.Final (if 0 < buf.length then .ret (.inl (0 + buf.length))
        else .ret (.inr (.error EPIPE)) : Prog IoOp IoOp.Out (ℕ ⊕ Except Errno Unit)) [] _
      rw [if_pos hlen, Nat.zero_add]
      exact .ret _
    exact ⟨_, .again hfirst hdone⟩
  · have hzero : buf.length = 0 := by omega
    exact ⟨[], hzero ▸ hdone⟩

end WriteAll

namespace Completion

/-! ## Emitting -/

/-- A run of `emit` that succeeds writes these bytes. -/
def Emits (sink : CompletionSink) (completeStageMask : UInt32) (bytes : List UInt8) : Prop :=
  ∃ array t, record sink.binding completeStageMask = some array ∧
    LoopRuns IoOp.Final (emit sink array) (emit sink array 0) t (.returned (.ok ())) ∧
    taken sink.fd t = bytes

theorem copyInto_replicate (done src : List UInt8) (n : ℕ) {start stop : ℕ}
    (hstart : done.length = start) (hstop : start + src.length = stop) (hn : src.length ≤ n) :
    copyInto (done ++ List.replicate n 0) start stop src =
      some (done ++ src ++ List.replicate (n - src.length) 0) := by
  subst hstart hstop
  unfold copyInto
  rw [if_pos ⟨by omega, by rw [List.length_append, List.length_replicate]; omega, by omega⟩,
    List.take_left, List.drop_append, List.drop_of_length_le (by omega), List.nil_append,
    List.drop_replicate, Nat.add_sub_cancel_left]

/-- The fields lie behind each other and fill the array. -/
theorem record_eq (binding : Vector UInt8 32) (mask : UInt32) :
    record binding mask =
      some (u16ToLeBytes VERSION ++ TAG ++ binding.toList ++ u32ToLeBytes mask) := by
  have hbinding : binding.toList.length = 32 := binding.length_toList
  have hversion : copyInto (List.replicate RECORD_LEN 0) 0 2 (u16ToLeBytes VERSION) =
      some (u16ToLeBytes VERSION ++ List.replicate 40 0) :=
    copyInto_replicate [] _ RECORD_LEN rfl rfl (by decide)
  have htag : copyInto (u16ToLeBytes VERSION ++ List.replicate 40 0) 2 6 TAG =
      some (u16ToLeBytes VERSION ++ TAG ++ List.replicate 36 0) :=
    copyInto_replicate _ TAG 40 rfl rfl (by decide)
  have hkey : copyInto (u16ToLeBytes VERSION ++ TAG ++ List.replicate 36 0) 6 (6 + BINDING_LEN)
      binding.toList = some (u16ToLeBytes VERSION ++ TAG ++ binding.toList ++
        List.replicate 4 0) := by
    have h := copyInto_replicate (u16ToLeBytes VERSION ++ TAG) binding.toList 36 rfl rfl (by omega)
    rw [hbinding] at h
    exact h
  have hmask : copyInto (u16ToLeBytes VERSION ++ TAG ++ binding.toList ++ List.replicate 4 0)
      (6 + BINDING_LEN) 42 (u32ToLeBytes mask) =
      some (u16ToLeBytes VERSION ++ TAG ++ binding.toList ++ u32ToLeBytes mask ++ []) :=
    copyInto_replicate _ _ 4 (by rw [List.length_append, hbinding]; rfl) rfl le_rfl
  have hlength : (u16ToLeBytes VERSION ++ TAG ++ binding.toList ++ List.replicate 4 0).length =
      42 := by
    rw [List.length_append, List.length_append, hbinding]
    rfl
  unfold record
  simp only [hversion, htag, hkey, hlength, hmask, Option.bind_eq_bind, Option.bind_some,
    List.append_nil]

theorem emits_iff {sink : CompletionSink} {mask : UInt32} {bytes : List UInt8} :
    Emits sink mask bytes ↔
      bytes = u16ToLeBytes VERSION ++ TAG ++ sink.binding.toList ++ u32ToLeBytes mask := by
  have htaken : ∀ {array t}, LoopRuns IoOp.Final (emit sink array) (emit sink array 0) t
      (.returned (.ok ())) → taken sink.fd t = array := by
    intro array t h
    obtain ⟨t₁, t₂, err | _, rfl, h₁, h₂⟩ := loopRuns_andThen.1 h
    · cases h₂.ret_inv.2
    · rw [taken_append, writeAll_taken h₁, List.drop_zero]
      rcases h₂.call_inv with ⟨out, t', rfl, hclose⟩ | ⟨-, heq, -⟩
      · rw [hclose.ret_inv.1]
        exact List.append_nil _
      · cases heq
  constructor
  · rintro ⟨array, t, harray, h, rfl⟩
    rw [record_eq] at harray
    rw [htaken h]
    exact (Option.some.inj harray).symm
  · rintro rfl
    obtain ⟨t, h⟩ := writeAll_runs sink.fd
      (u16ToLeBytes VERSION ++ TAG ++ sink.binding.toList ++ u32ToLeBytes mask)
    have hemit : LoopRuns IoOp.Final (emit sink _) (emit sink _ 0) _ (.returned (.ok ())) :=
      loopRuns_andThen.2
        ⟨t, _, .ok (), rfl, h, @Runs.perform _ IoOp.Out _ (.close sink.fd) (.ok ())⟩
    exact ⟨_, _, record_eq .., hemit, htaken hemit⟩

/-! ## Decoding -/

theorem slice_append (bytes : List UInt8) {i j k : ℕ} (hij : i ≤ j) (hjk : j ≤ k)
    (hk : k ≤ bytes.length) : slice bytes i j ++ slice bytes j k = slice bytes i k := by
  have htake : (bytes.take k).take j = bytes.take j := by
    rw [List.take_take, Nat.min_eq_left hjk]
  have hlength : i ≤ (bytes.take j).length := by
    rw [List.length_take]
    omega
  unfold slice
  rw [← List.drop_append_of_le_length hlength, ← htake, List.take_append_drop]

theorem slice_succ {bytes : List UInt8} {i : ℕ} (h : i < bytes.length) :
    slice bytes i (i + 1) = [bytes[i]] := by
  unfold slice
  rw [List.take_succ_eq_append_getElem h, List.drop_left' (List.length_take_of_le h.le)]

theorem slice_middle {before field behind : List UInt8} {i j : ℕ} (hi : before.length = i)
    (hj : i + field.length = j) : slice (before ++ field ++ behind) i j = field := by
  subst hi hj
  unfold slice
  rw [← List.length_append, List.take_left, List.drop_left]

/-- A record that is cut at the fields is the fields one behind the other. -/
theorem slices_eq_iff {bytes version tag key mask : List UInt8} (hversion : version.length = 2)
    (htag : tag.length = 4) (hkey : key.length = 32) (hmask : mask.length = 4) :
    bytes.length = 42 ∧ slice bytes 0 2 = version ∧ slice bytes 2 6 = tag ∧
        slice bytes 6 38 = key ∧ slice bytes 38 42 = mask ↔
      bytes = version ++ tag ++ key ++ mask := by
  constructor
  · rintro ⟨hlength, rfl, rfl, rfl, rfl⟩
    rw [slice_append _ (by omega) (by omega) (by omega),
      slice_append _ (by omega) (by omega) (by omega),
      slice_append _ (by omega) (by omega) (by omega)]
    exact (List.take_of_length_le hlength.le).symm
  · rintro rfl
    have hlength : (version ++ tag ++ key ++ mask).length = 42 := by
      simp only [List.length_append, hversion, htag, hkey, hmask]
    have hfirst : version ++ tag ++ key ++ mask = [] ++ version ++ (tag ++ key ++ mask) := by
      simp only [List.nil_append, List.append_assoc]
    have hsecond : version ++ tag ++ key ++ mask = version ++ tag ++ (key ++ mask) := by
      simp only [List.append_assoc]
    have hlast : version ++ tag ++ key ++ mask = version ++ tag ++ key ++ mask ++ [] := by
      rw [List.append_nil]
    have hprefix : (version ++ tag).length = 6 := by rw [List.length_append, hversion, htag]
    refine ⟨hlength, ?_, ?_, slice_middle hprefix (by omega), ?_⟩
    · rw [hfirst]
      exact slice_middle rfl (by omega)
    · rw [hsecond]
      exact slice_middle hversion (by omega)
    · rw [hlast]
      exact slice_middle (by rw [List.length_append, hprefix, hkey]) (by omega)

/-- The decoder looks at every byte. -/
theorem decode_eq_ok_iff {bytes : List UInt8} {expectedBinding : Vector UInt8 32} {r : Record} :
    decode bytes expectedBinding = .ok r ↔
      bytes = u16ToLeBytes VERSION ++ TAG ++ expectedBinding.toList ++
        u32ToLeBytes COMPLETE_STAGE_MASK ∧ r = ⟨expectedBinding, COMPLETE_STAGE_MASK⟩ := by
  rw [← slices_eq_iff rfl rfl expectedBinding.length_toList rfl]
  unfold decode
  by_cases hlength : bytes.length = 42
  · have hone : ∀ i (h : i < bytes.length), slice bytes i (i + 1) = [bytes[i]] :=
      fun i h => slice_succ h
    have hversion : slice bytes 0 2 = [bytes[0], bytes[1]] := by
      rw [← slice_append bytes zero_le_one one_le_two (by omega)]
      exact congrArg₂ (· ++ ·) (hone 0 (by omega)) (hone 1 (by omega))
    have hmask : slice bytes 38 42 = [bytes[38], bytes[39], bytes[40], bytes[41]] := by
      rw [← slice_append bytes (show 38 ≤ 39 by omega) (by omega) (by omega),
        ← slice_append bytes (show 39 ≤ 40 by omega) (by omega) (by omega),
        ← slice_append bytes (show 40 ≤ 41 by omega) (by omega) (by omega)]
      exact congrArg₂ (· ++ ·) (hone 38 (by omega)) (congrArg₂ (· ++ ·) (hone 39 (by omega))
        (congrArg₂ (· ++ ·) (hone 40 (by omega)) (hone 41 (by omega))))
    rw [dif_pos hlength, hversion, hmask, ← u16FromLeBytes_eq_iff, ← u32FromLeBytes_eq_iff]
    have hkey : ∀ h, (⟨(slice bytes 6 38).toArray, h⟩ : Vector UInt8 32) = expectedBinding ↔
        slice bytes 6 38 = expectedBinding.toList := fun h => by
      rw [← Vector.toList_inj]
      exact Iff.rfl
    dsimp only
    split_ifs with h₁ h₂ h₃ h₄
    · exact iff_of_false not_false fun h => h₁ h.1.2.1
    · exact iff_of_false not_false fun h => h₂ h.1.2.2.1
    · exact iff_of_false not_false fun h => h₃ ((hkey _).2 h.1.2.2.2.1)
    · exact iff_of_false not_false fun h => h₄ h.1.2.2.2.2
    · simp only [not_not, ne_eq] at h₁ h₂ h₃ h₄
      rw [Except.ok.injEq, h₃, h₄, eq_comm]
      exact ⟨fun h => ⟨⟨hlength, h₁, h₂, (hkey _).1 h₃, rfl⟩, h⟩, And.right⟩
  · rw [dif_neg hlength]
    refine iff_of_false (fun h => ?_) fun h => hlength h.1.1
    cases h

/-- A record is accepted for a binding exactly when it is the bytes that `emit` writes for a sink
with that binding and the whole mask. -/
theorem decode_iff_emits {bytes : List UInt8} {expectedBinding : Vector UInt8 32} {r : Record}
    (fd : CInt) :
    decode bytes expectedBinding = .ok r ↔
      Emits ⟨expectedBinding, fd⟩ COMPLETE_STAGE_MASK bytes ∧
        r = ⟨expectedBinding, COMPLETE_STAGE_MASK⟩ := by
  rw [decode_eq_ok_iff, emits_iff]

end Completion

end Pnut.Child
