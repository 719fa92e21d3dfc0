import SlotBus.Isolation

/-!
# When an accepted payload is lossless

`write_request` and `write_response` check that the metadata fits into the slot's arena and send a
body that does not fit to an overflow region, but the length fields of the record have 16 and 32
bits and are filled by a narrowing cast.

* `write_lossless_iff` — an accepted payload is recorded and read back exactly **if and only if**
  its lengths fit the fields;
* `write_request_truncates` — 65536 bytes of metadata are accepted and recorded as none.
-/

namespace SlotBus

open ByteMemory AtomicProgram AtomicProgram.Program

/-- The two length fields of a direction hold these lengths. -/
def LengthsRecorded (d : Direction) (slot meta_len body_len : ℕ) (m : Memory) : Prop :=
  load m (slot_address slot + (d.fields + 4)) 2 = meta_len ∧
    load m (slot_address slot + (d.fields + 12)) 4 = body_len

variable {target : Target} {region : ShmRegion} {config : SlotBusConfig} {i : ℕ} {t : Thread}
  {meta_bytes body : List UInt8}

/-- A request is recorded with its true lengths, and reading it works on exactly its bytes. -/
def RequestLossless (target : Target) (region : ShmRegion) (i : ℕ) (config : SlotBusConfig)
    (meta_bytes body : List UInt8) (w : World) : Prop :=
  LengthsRecorded .request i meta_bytes.length body.length w.mem ∧
    ∃ req_id method, ∀ codec : Codec RequestMeta,
      Returns target (read_request codec target region i config).run w
        (((codec.from_bytes meta_bytes).mapError .Serialization).map fun m =>
        (req_id, method, m, body))

/-- A response is recorded with its true lengths, and reading it works on exactly its bytes. -/
def ResponseLossless (target : Target) (region : ShmRegion) (i : ℕ) (config : SlotBusConfig)
    (meta_bytes body : List UInt8) (w : World) : Prop :=
  LengthsRecorded .response i meta_bytes.length body.length w.mem ∧
    ∃ status, ∀ codec : Codec ResponseMeta,
      Returns target (read_response codec target region i config).run w
        (((codec.from_bytes meta_bytes).mapError .Serialization).map fun m => (status, m, body))

/-- The length fields after a write: the lengths modulo their width. -/
theorem WroteAlone.lengths {H : SlotHalf} {P : Placement} {m : Memory} {w : World}
    (h : WroteAlone H t meta_bytes body P m w) :
    LengthsRecorded H.direction H.slot (meta_bytes.length % 2 ^ 16)
      (body.length % 2 ^ 32) w.mem := by
  have hr := h.recorded.congr h.bytes
  exact ⟨hr.meta_len, hr.body_len⟩

/-- The fields hold the true lengths only if these fit. -/
theorem WroteAlone.lengths_iff {H : SlotHalf} {P : Placement} {m : Memory} {w : World}
    (h : WroteAlone H t meta_bytes body P m w) :
    LengthsRecorded H.direction H.slot meta_bytes.length body.length w.mem ↔
      meta_bytes.length < 2 ^ 16 ∧ body.length < 2 ^ 32 := by
  obtain ⟨hm, hb⟩ := h.lengths
  unfold LengthsRecorded
  rw [hm, hb]
  constructor
  · rintro ⟨h1, h2⟩
    exact ⟨h1 ▸ Nat.mod_lt _ (by norm_num), h2 ▸ Nat.mod_lt _ (by norm_num)⟩
  · rintro ⟨h1, h2⟩
    exact ⟨Nat.mod_eq_of_lt h1, Nat.mod_eq_of_lt h2⟩

/-- **Accepted means lossless, exactly for lengths that the record can hold.** -/
theorem write_lossless_iff {raw : ShmRegion} {mem mem' : Memory}
    (hinit : raw.init_control config mem = .ok (region, mem')) (hsize : config.region_size < 2 ^ 32)
    (hi : i < region.num_slots) {w w₁ : World} {overflow : Option OverflowRegion} :
    (∀ req_id method,
      Runs (machine target) t (write_request target region i req_id method meta_bytes body config) w
        (.ok overflow) w₁ →
      (RequestLossless target region i config meta_bytes body w₁ ↔
        meta_bytes.length < 2 ^ 16 ∧ body.length < 2 ^ 32)) ∧
    (∀ status,
      Runs (machine target) t (write_response target region i status meta_bytes body config).run w
        (.ok overflow) w₁ →
      (ResponseLossless target region i config meta_bytes body w₁ ↔
        meta_bytes.length < 2 ^ 16 ∧ body.length < 2 ^ 32)) := by
  have htable := init_control_table hinit
  have hheap : region.heap_size < 2 ^ 32 := by
    have := (init_control_layout hinit).2.2
    omega
  constructor
  · intro req_id method hwrite
    have hH : SlotHalf.Sound ⟨.request, target, region, config, i⟩ := ⟨⟨htable, hi⟩, hheap⟩
    obtain ⟨P, rfl, hwrote⟩ := ((write_request_alone hH w).runs trivial hwrite).2 overflow rfl
    refine ⟨fun h => hwrote.lengths_iff.mp h.1, fun h => ⟨hwrote.lengths_iff.mpr h, ?_⟩⟩
    exact ⟨_, _, fun codec => read_request_returns hH codec hwrote.bytes hwrote.backed hwrote.live
      hwrote.recorded h.1 h.2⟩
  · intro status hwrite
    have hH : SlotHalf.Sound ⟨.response, target, region, config, i⟩ := ⟨⟨htable, hi⟩, hheap⟩
    obtain ⟨P, rfl, hwrote⟩ := ((write_response_alone hH w).runs trivial hwrite).2 overflow rfl
    refine ⟨fun h => hwrote.lengths_iff.mp h.1, fun h => ⟨hwrote.lengths_iff.mpr h, ?_⟩⟩
    exact ⟨_, fun codec => read_response_returns hH codec hwrote.bytes hwrote.backed hwrote.live
      hwrote.recorded h.1 h.2⟩

/-- A request with an inline body, accepted by a region of one slot. -/
theorem write_lossless_iff_small : ∃ w₁,
    Runs (machine .linux) (.dispatch 0)
        (write_request .linux small_region 0 "a" METHOD_POST [0, 0, 0, 0, 0] [7] small_config)
          small_world
        (.ok none) w₁ ∧
      RequestLossless .linux small_region 0 small_config [0, 0, 0, 0, 0] [7] w₁ := by
  obtain ⟨w₁, hwrite⟩ :=
    Machine.exists_run (M := machine .linux) (t := .dispatch 0) (c := ⟨false, ""⟩)
    (p := write_request .linux small_region 0 "a" METHOD_POST [0, 0, 0, 0, 0] [7] small_config)
    (s := small_world) (v := .ok none) rfl
  exact ⟨w₁, hwrite, ((write_lossless_iff small_region_laid_out (by decide)
    (by decide)).1 "a" METHOD_POST hwrite).mpr (by decide)⟩

/-! ### Metadata that does not fit the field -/

/-- A request without body whose metadata fits into the arena is accepted. -/
theorem write_request_empty_body (req_id : String) (method : UInt8) (hslot : i < region.num_slots)
    (hmeta : meta_bytes.length ≤ (region.slot_arenas i).1.2)
    (hfits : (region.slot_arenas i).1.1 % 2 ^ 32 + meta_bytes.length ≤ region.heap_size)
    (w : World) :
    ∃ w₁, Runs (machine target) t
      (write_request target region i req_id method meta_bytes [] config) w
      (.ok none) w₁ := by
  apply Machine.exists_run (c := ⟨false, ""⟩)
  unfold write_request write_request_inner write_payload write_body
    ShmRegion.heap_write_checked ensure
  simp only [Direction.half, hslot, hmeta, hfits, if_true]
  rfl

/-- A region of one slot whose request half holds 65536 bytes. -/
def wide_config : SlotBusConfig := ⟨"n", "p", 1, 131264⟩

def wide_mapping : ShmRegion := ⟨0, 131264, "p-n", 0, 0, 0⟩

def wide_region : ShmRegion := ⟨0, 131264, "p-n", 1, 192, 131072⟩

/-- **Metadata of 65536 bytes is accepted and recorded as no metadata at all.** -/
theorem write_request_truncates : ∃ mem' w₁,
    wide_mapping.init_control wide_config (fun _ => 0) = .ok (wide_region, mem') ∧
      Runs (machine .linux) (.dispatch 0)
        (write_request .linux wide_region 0 "a" METHOD_GET (List.replicate 65536 0) [] wide_config)
        small_world (.ok none) w₁ ∧
      LengthsRecorded .request 0 0 0 w₁.mem ∧
      ¬ RequestLossless .linux wide_region 0 wide_config (List.replicate 65536 0) [] w₁ := by
  obtain ⟨w₁, hwrite⟩ :
      ∃ w₁, Runs (machine .linux) (.dispatch 0) (write_request .linux wide_region 0 "a" METHOD_GET
          (List.replicate 65536 0) [] wide_config) small_world (.ok none) w₁ :=
    write_request_empty_body "a" METHOD_GET (by decide) (by rw [List.length_replicate]; decide)
      (by rw [List.length_replicate]; decide) small_world
  have hH : SlotHalf.Sound ⟨.request, .linux, wide_region, wide_config, 0⟩ :=
    ⟨⟨by decide, by decide⟩, by decide⟩
  obtain ⟨P, -, hwrote⟩ := ((write_request_alone hH small_world).runs trivial hwrite).2 none rfl
  have hlengths := hwrote.lengths
  rw [List.length_replicate] at hlengths
  refine ⟨_, w₁, rfl, hwrite, hlengths, fun h => ?_⟩
  have hlt := (hwrote.lengths_iff.mp h.1).1
  rw [List.length_replicate] at hlt
  exact absurd hlt (by decide)

end SlotBus
