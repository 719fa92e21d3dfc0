import SlotBus.Startup

/-!
# Laying out a control region, and taking over a layout

`init_control` and `validate_control` as the source runs them, on a handle that they update in
place.

* `init_control_in_place_eq`, `validate_control_in_place_eq` — they are the functions of `Region`,
  and an error leaves everything as it was;
* `init_control_geometry` — **the parts of a region that has been laid out are disjoint and lie in
  the mapping**;
* `validate_control_backed_iff` — when the mapping holds all of an accepted layout;
* `init_control_agreement_iff` — when the layout that the hub has written is the one that a worker
  reads.
-/

namespace SlotBus

open ByteMemory

/-! ### In place -/

namespace ShmRegion

/-- `init_control`, updating the handle and the mapping. -/
def init_control_in_place (config : SlotBusConfig) :
    ExceptT SlotBusError (StateM (ShmRegion × Memory)) Unit := do
  let (heap_offset, heap_size) := compute_layout config.num_slots config.region_size
  let needed := heap_offset + heap_size
  let (region, _) ← get
  if needed > region.len then
    throw (.InvalidRegion (
      s!"region '{region.name}' maps {region.len} bytes but the requested layout needs {needed} " ++
      s!"(num_slots={config.num_slots}, region_size={config.region_size}); " ++
      "an existing smaller mapping was adopted — " ++
      "stop every peer and remove the stale region before retrying"))
  modify fun s => ({ s.1 with num_slots := config.num_slots }, s.2)
  modify fun s => ({ s.1 with heap_offset := heap_offset }, s.2)
  modify fun s => ({ s.1 with heap_size := heap_size }, s.2)
  -- zero the entire region
  modify fun s => (s.1, write s.2 0 (List.replicate s.1.len 0))
  modify fun s => (s.1, write s.2 0 (encodeLE 4 SHM_MAGIC))
  modify fun s => (s.1, write s.2 4 (encodeLE 4 SHM_VERSION))
  modify fun s => (s.1, write s.2 8 (encodeLE 4 config.num_slots))
  modify fun s => (s.1, write s.2 12 (encodeLE 4 heap_offset))
  modify fun s => (s.1, write s.2 16 (encodeLE 4 heap_size))
  modify fun s => (s.1, write s.2 20 (encodeLE 4 0))

/-- `validate_control`, updating the handle. -/
def validate_control_in_place (mem : Memory) : ExceptT SlotBusError (StateM ShmRegion) Unit := do
  let magic := load mem 0 4
  let version := load mem 4 4
  let num_slots := load mem 8 4
  let heap_offset := load mem 12 4
  let heap_size := load mem 16 4
  if magic ≠ SHM_MAGIC then
    let expected := (hex 8 SHM_MAGIC).toUpper
    let got := (hex 8 magic).toUpper
    throw (.InvalidRegion s!"bad magic: expected 0x{expected}, got 0x{got}")
  if version ≠ SHM_VERSION then
    throw (.InvalidRegion s!"bad version: expected {SHM_VERSION}, got {version}")
  let region ← get
  if heap_offset + heap_size > region.len then
    let layout_end := heap_offset + heap_size
    throw (.InvalidRegion (
      s!"region '{region.name}' maps {region.len} bytes " ++
      "but its header describes a layout ending at " ++
      s!"{layout_end} (heap_offset={heap_offset}, heap_size={heap_size}); " ++
      "the region was created against a larger region_size"))
  modify fun s => { s with num_slots := num_slots }
  modify fun s => { s with heap_offset := heap_offset }
  modify fun s => { s with heap_size := heap_size }

theorem run_get_bind {σ ε α : Type} (f : σ → ExceptT ε (StateM σ) α) (s : σ) :
    (get >>= f).run.run s = (f s).run.run s := rfl

/-- An error of `init_control` leaves the handle and the mapping as they were. -/
theorem init_control_in_place_eq (region : ShmRegion) (config : SlotBusConfig) (mem : Memory) :
    (init_control_in_place config).run.run (region, mem) =
      match region.init_control config mem with
      | .ok s => (.ok (), s)
      | .error e => (.error e, (region, mem)) := by
  by_cases hneeded : (compute_layout config.num_slots config.region_size).1 +
      (compute_layout config.num_slots config.region_size).2 > region.len
  · simp only [init_control, if_pos hneeded, init_control_in_place]
    rw [run_get_bind]
    simp only [if_pos hneeded]
    rfl
  · simp only [init_control, if_neg hneeded, init_control_in_place]
    rw [run_get_bind]
    simp only [if_neg hneeded]
    rfl

/-- An error of `validate_control` leaves the handle as it was. -/
theorem validate_control_in_place_eq (region : ShmRegion) (mem : Memory) :
    (validate_control_in_place mem).run.run region =
      match region.validate_control mem with
      | .ok region' => (.ok (), region')
      | .error e => (.error e, region) := by
  simp only [validate_control, validate_control_in_place]
  split
  · rfl
  split
  · rfl
  rw [run_get_bind]
  split
  · rfl
  · rfl

end ShmRegion

/-! ### The parts of a region -/

/-- What a control region consists of. -/
inductive Piece where
  | header
  | slot (i : ℕ)
  | arena (d : Direction) (i : ℕ)

namespace Piece

/-- The pieces that a handle to the region knows of. -/
def In (region : ShmRegion) : Piece → Prop
  | .header => True
  | .slot i => i < region.num_slots
  | .arena _ i => i < region.num_slots

/-- The addresses of a piece. -/
def bytes (region : ShmRegion) : Piece → Set ℕ
  | .header => span 0 SHM_HEADER_SIZE
  | .slot i => span (slot_address i) SLOT_META_SIZE
  | .arena d i => SlotBus.arena region d i

end Piece

/-- The heap bytes that belong to no arena. -/
def unowned (region : ShmRegion) : Set ℕ :=
  {x ∈ heap region | ∀ d, ∀ i < region.num_slots, x ∉ arena region d i}

/-- A region in which every piece has its own bytes, and whose slots are free. -/
structure WellLaidOut (region : ShmRegion) (mem : Memory) : Prop where
  disjoint : ∀ p q : Piece, p.In region → q.In region → p ≠ q →
    Disjoint (p.bytes region) (q.bytes region)
  inside : ∀ p : Piece, p.In region → p.bytes region ⊆ span 0 region.len
  heap_aligned : 8 ∣ region.heap_offset
  aligned : ∀ (d : Direction) (i : ℕ), i < region.num_slots →
    8 ∣ (d.half (region.slot_arenas i)).1 ∧ 8 ∣ (d.half (region.slot_arenas i)).2
  halves_abut : ∀ i < region.num_slots,
    (region.slot_arenas i).1.1 + (region.slot_arenas i).1.2 = (region.slot_arenas i).2.1
  slots_abut : ∀ i, i + 1 < region.num_slots →
    (region.slot_arenas i).2.1 + (region.slot_arenas i).2.2 = (region.slot_arenas (i + 1)).1.1
  unowned_lt : (unowned region).ncard < 8 * region.num_slots
  free : ∀ i < region.num_slots, slot_status mem i = SLOT_FREE

theorem arena_size_dvd (num_slots heap_size : ℕ) : 8 ∣ arena_size num_slots heap_size := by
  unfold arena_size
  split
  · exact Nat.dvd_zero 8
  · exact Nat.dvd_mul_left 8 _

/-- Rounding an equal share down loses less than 8 bytes of the division and less than one of the
remainder. -/
theorem heap_size_lt {num_slots : ℕ} (h : 0 < num_slots) (heap_size : ℕ) :
    heap_size < num_slots * arena_size num_slots heap_size + 8 * num_slots := by
  have hshare : heap_size / num_slots < arena_size num_slots heap_size + 8 := by
    rw [arena_size, if_neg (by omega)]
    omega
  calc heap_size < num_slots * (heap_size / num_slots + 1) := Nat.lt_mul_div_succ heap_size h
    _ ≤ num_slots * (arena_size num_slots heap_size + 8) := Nat.mul_le_mul_left _ hshare
    _ = num_slots * arena_size num_slots heap_size + 8 * num_slots := by ring

theorem slot_arenas_aligned (d : Direction) (region : ShmRegion) (i : ℕ) :
    8 ∣ (d.half (region.slot_arenas i)).1 ∧ 8 ∣ (d.half (region.slot_arenas i)).2 := by
  have harena := arena_size_dvd region.num_slots region.heap_size
  have hbase : 8 ∣ i * arena_size region.num_slots region.heap_size := harena.mul_left i
  have hhalf : 8 ∣ arena_size region.num_slots region.heap_size / 2 / 8 * 8 := Nat.dvd_mul_left 8 _
  cases d with
  | request => exact ⟨hbase, hhalf⟩
  | response => exact ⟨Nat.dvd_add hbase hhalf, Nat.dvd_sub harena hhalf⟩

/-- The arenas leave out only what rounding the shares down has left over. -/
theorem unowned_subset (region : ShmRegion) :
    unowned region ⊆ Finset.Ico (region.heap_offset +
      region.num_slots * arena_size region.num_slots region.heap_size)
        (region.heap_offset + region.heap_size) := by
  rintro x ⟨⟨hge, hlt⟩, hnone⟩
  rw [Finset.coe_Ico, Set.mem_Ico]
  refine ⟨Nat.le_of_not_lt fun hshares => ?_, hlt⟩
  -- the share in which the address lies
  obtain ⟨y, rfl⟩ := Nat.exists_eq_add_of_le hge
  have hy : y < region.num_slots * arena_size region.num_slots region.heap_size := by omega
  have hslot : y / arena_size region.num_slots region.heap_size < region.num_slots :=
    Nat.div_lt_of_lt_mul (by rwa [Nat.mul_comm] at hy)
  have hpos : 0 < arena_size region.num_slots region.heap_size :=
    Nat.pos_of_ne_zero fun h => by rw [h, Nat.mul_zero] at hy; omega
  have hrest := Nat.mod_lt y hpos
  have hsplit := Nat.div_add_mod' y (arena_size region.num_slots region.heap_size)
  have hrequest := hnone .request _ hslot
  have hresponse := hnone .response _ hslot
  simp only [arena, mem_span, Direction.half, ShmRegion.slot_arenas,
    slot_arenas] at hrequest hresponse
  omega

theorem unowned_ncard_lt {region : ShmRegion} (h : 0 < region.num_slots) :
    (unowned region).ncard < 8 * region.num_slots := by
  have hcard := Set.ncard_le_ncard (unowned_subset region) (Finset.finite_toSet _)
  rw [Set.ncard_coe_finset, Nat.card_Ico] at hcard
  have hsize := heap_size_lt h region.heap_size
  omega

theorem header_disjoint_slot (i : ℕ) :
    Disjoint (span 0 SHM_HEADER_SIZE) (span (slot_address i) SLOT_META_SIZE) :=
  disjoint_span (.inl (by simp only [slot_address]; omega))

theorem slot_disjoint {i j : ℕ} (h : i ≠ j) :
    Disjoint (span (slot_address i) SLOT_META_SIZE) (span (slot_address j) SLOT_META_SIZE) := by
  apply disjoint_span
  rcases Nat.lt_or_gt_of_ne h with h | h
  · exact .inl (slot_address_lt h)
  · exact .inr (slot_address_lt h)

/-- **The pieces of a region are disjoint** when its heap begins behind the slot table. -/
theorem ShmRegion.TableBelowHeap.disjoint {region : ShmRegion}
    (h : region.TableBelowHeap) {p q : Piece} (hp : p.In region) (hq : q.In region) (hne : p ≠ q) :
    Disjoint (p.bytes region) (q.bytes region) := by
  have hheader : ∀ (d : Direction) {i : ℕ}, i < region.num_slots →
      Disjoint (span 0 SHM_HEADER_SIZE) (arena region d i) := fun d i hi =>
    (disjoint_span (.inl (by simp only [ShmRegion.TableBelowHeap] at h; omega))).mono_right
    (arena_subset_heap d hi)
  have hslot : ∀ (d : Direction) {i j : ℕ}, i < region.num_slots → j < region.num_slots →
      Disjoint (span (slot_address j) SLOT_META_SIZE) (arena region d i) := fun d i j hi hj =>
    (disjoint_span (.inl (slot_address_heap h hj))).mono_right (arena_subset_heap d hi)
  cases p with
  | header =>
      cases q with
      | header => exact absurd rfl hne
      | slot j => exact header_disjoint_slot j
      | arena e j => exact hheader e hq
  | slot i =>
      cases q with
      | header => exact (header_disjoint_slot i).symm
      | slot j => exact slot_disjoint fun hij => hne (hij ▸ rfl)
      | arena e j => exact hslot e hq hp
  | arena d i =>
      cases q with
      | header => exact (hheader d hp).symm
      | slot j => exact (hslot d hp hq).symm
      | arena e j =>
          refine arena_disjoint region ?_
          by_contra hsame
          simp only [not_or, not_not] at hsame
          exact hne (hsame.1 ▸ hsame.2 ▸ rfl)

theorem init_control_len {raw region : ShmRegion} {config : SlotBusConfig} {old mem : Memory}
    (h : raw.init_control config old = .ok (region, mem)) : region.len = raw.len := by
  simp only [ShmRegion.init_control] at h
  split at h
  · cases h
  · obtain ⟨rfl, -⟩ := Prod.mk.inj (Except.ok.inj h)
    rfl

theorem init_control_wellLaidOut {raw region : ShmRegion}
    {config : SlotBusConfig} {old mem : Memory}
    (h : raw.init_control config old = .ok (region, mem)) (hpos : 0 < config.num_slots) :
    WellLaidOut region mem := by
  have htable := init_control_table h
  have hfits := (init_control_bytes h).1
  rw [← init_control_len h] at hfits
  obtain ⟨hslots, hoffset, -⟩ := init_control_layout h
  refine ⟨fun p q => htable.disjoint, fun p hp => ?_, ?_, fun d i _ =>
    slot_arenas_aligned d region i, ?_, ?_, ?_,
    fun i => init_control_zero h⟩
  · cases p with
    | header =>
        simp only [ShmRegion.TableBelowHeap] at htable
        exact span_subset (Nat.zero_le _) (by omega)
    | slot i =>
        have hslot := slot_address_heap htable hp
        exact span_subset (Nat.zero_le _) (by simp only [SLOT_META_SIZE]; omega)
    | arena d i =>
        exact (arena_subset_heap d hp).trans (span_subset (Nat.zero_le _) (by omega))
  · rw [hoffset]
    simp only [SHM_HEADER_SIZE, SLOT_META_SIZE]
    omega
  · intro i _
    rfl
  · intro i _
    simp only [ShmRegion.slot_arenas, slot_arenas]
    rw [Nat.succ_mul]
    omega
  · exact unowned_ncard_lt (hslots ▸ hpos)

namespace ShmRegion

/-- **`init_control` lays out a sound region or changes nothing.** -/
theorem init_control_geometry (region : ShmRegion) (config : SlotBusConfig) (mem : Memory)
    (hpos : 1 ≤ config.num_slots) :
    match (init_control_in_place config).run.run (region, mem) with
    | (.ok (), (region', mem')) => region'.num_slots = config.num_slots ∧ region'.len = region.len ∧
        WellLaidOut region' mem'
    | (.error _, (region', mem')) => region' = region ∧ mem' = mem := by
  rw [init_control_in_place_eq]
  cases h : region.init_control config mem with
  | ok s =>
      exact ⟨(init_control_layout h).1, init_control_len h, init_control_wellLaidOut h hpos⟩
  | error e => exact ⟨rfl, rfl⟩

theorem init_control_geometry_small : ∃ region mem,
    (init_control_in_place small_config).run.run (small_mapping, fun _ => 0) =
    (.ok (), (region, mem)) ∧
      WellLaidOut region mem :=
  ⟨_, _, rfl, (init_control_geometry small_mapping small_config (fun _ => 0) (by decide)).2.2⟩

end ShmRegion

/-! ### Taking over a layout -/

/-- The mapping holds the header, every slot record and the heap, and no slot record lies in the
heap. -/
structure ShmRegion.InMapping (region : ShmRegion) : Prop where
  header : span 0 SHM_HEADER_SIZE ⊆ span 0 region.len
  slots : ∀ i < region.num_slots, span (slot_address i) SLOT_META_SIZE ⊆ span 0 region.len
  heap_inside : heap region ⊆ span 0 region.len
  apart : ∀ i < region.num_slots, Disjoint (span (slot_address i) SLOT_META_SIZE) (heap region)

/-- The header passes the checks of `validate_control`. -/
structure HeaderAccepted (region : ShmRegion) (mem : Memory) : Prop where
  magic : load mem 0 4 = SHM_MAGIC
  version : load mem 4 4 = SHM_VERSION
  heap_end : load mem 12 4 + load mem 16 4 ≤ region.len

theorem span_subset_iff {a n b k : ℕ} (h : 0 < n) :
    span a n ⊆ span b k ↔ b ≤ a ∧ a + n ≤ b + k := by
  constructor
  · intro hsub
    have h1 := hsub (show a ∈ span a n from ⟨le_rfl, by omega⟩)
    have h2 := hsub (show a + n - 1 ∈ span a n from ⟨by omega, by omega⟩)
    rw [mem_span] at h1 h2
    omega
  · rintro ⟨h1, h2⟩
    exact span_subset h1 h2

/-- The whole slot table has to fit, and to lie on one side of the heap. -/
theorem ShmRegion.inMapping_iff {region : ShmRegion}
    (hheap : region.heap_offset + region.heap_size ≤ region.len) :
    region.InMapping ↔ SHM_HEADER_SIZE + region.num_slots * SLOT_META_SIZE ≤ region.len ∧
      (region.num_slots = 0 ∨ region.heap_size = 0 ∨
        region.heap_offset + region.heap_size ≤ SHM_HEADER_SIZE ∨ region.TableBelowHeap) := by
  simp only [TableBelowHeap, SHM_HEADER_SIZE, SLOT_META_SIZE]
  constructor
  · rintro ⟨hheader, hslots, -, hapart⟩
    have hlen := ((span_subset_iff (by decide)).mp hheader).2
    simp only [SHM_HEADER_SIZE] at hlen
    constructor
    · by_cases hn : region.num_slots = 0
      · omega
      · -- the last record ends where the table ends
        have hlast :=
          ((span_subset_iff (by decide)).mp (hslots (region.num_slots - 1) (by omega))).2
        simp only [slot_address, SHM_HEADER_SIZE, SLOT_META_SIZE] at hlast
        omega
    · by_contra hall
      -- the first address that is behind the header and in the heap
      obtain ⟨x, hx, hge, hlt⟩ : ∃ x, x ∈ SlotBus.heap region ∧ 64 ≤ x ∧
          x < 64 + region.num_slots * 128 :=
        ⟨max region.heap_offset 64, ⟨by omega, by omega⟩, by omega, by omega⟩
      refine Set.disjoint_left.mp (hapart ((x - 64) / 128) (by omega)) ?_ hx
      rw [mem_span]
      simp only [slot_address, SHM_HEADER_SIZE, SLOT_META_SIZE]
      omega
  · rintro ⟨htable, hside⟩
    refine ⟨span_subset le_rfl (by simp only [SHM_HEADER_SIZE]; omega), fun i hi => ?_,
      span_subset (Nat.zero_le _) (by omega), fun i hi => ?_⟩
    · refine span_subset (Nat.zero_le _) ?_
      simp only [slot_address, SHM_HEADER_SIZE, SLOT_META_SIZE]
      omega
    · by_cases hempty : region.heap_size = 0
      · refine Set.disjoint_right.mpr fun x hx => ?_
        have hx' : region.heap_offset ≤ x ∧ x < region.heap_offset + region.heap_size := hx
        omega
      · apply disjoint_span
        simp only [slot_address, SHM_HEADER_SIZE, SLOT_META_SIZE]
        omega

namespace ShmRegion

/-- What `validate_control` takes over, if it does. -/
theorem validate_control_of_accepted {region : ShmRegion} {mem : Memory}
    (h : HeaderAccepted region mem) :
    region.validate_control mem = .ok { region with
      num_slots := load mem 8 4, heap_offset := load mem 12 4, heap_size := load mem 16 4 } := by
  have hend := h.heap_end
  simp only [validate_control]
  rw [if_neg (not_not.mpr h.magic), if_neg (not_not.mpr h.version), if_neg (by omega)]

theorem validate_control_of_not_accepted {region : ShmRegion} {mem : Memory}
    (h : ¬ HeaderAccepted region mem) :
    ∃ e, region.validate_control mem = .error e := by
  simp only [validate_control]
  split
  · exact ⟨_, rfl⟩
  split
  · exact ⟨_, rfl⟩
  split
  · exact ⟨_, rfl⟩
  · rename_i hmagic hversion hend
    exact absurd ⟨not_not.mp hmagic, not_not.mp hversion, by omega⟩ h

/-- `validate_control` has taken over a layout that the mapping can back, or has changed nothing. -/
def TakesOverSafely (region : ShmRegion) (mem : Memory) : Prop :=
  match (validate_control_in_place mem).run.run region with
  | (.ok (), region') => region'.len = region.len ∧ region'.InMapping
  | (.error _, region') => region' = region

/-- **When an accepted layout lies in the mapping.**  The check covers the heap only: the slot table
has to fit as well, and must not overlap the heap. -/
theorem validate_control_inMapping_iff (region : ShmRegion) (mem : Memory) :
    region.TakesOverSafely mem ↔
      (HeaderAccepted region mem →
        SHM_HEADER_SIZE + load mem 8 4 * SLOT_META_SIZE ≤ region.len ∧
          (load mem 8 4 = 0 ∨ load mem 16 4 = 0 ∨ load mem 12 4 + load mem 16 4 ≤ SHM_HEADER_SIZE ∨
            SHM_HEADER_SIZE + load mem 8 4 * SLOT_META_SIZE ≤ load mem 12 4)) := by
  rw [TakesOverSafely, validate_control_in_place_eq]
  by_cases h : HeaderAccepted region mem
  · rw [validate_control_of_accepted h]
    simp only [h, true_implies, true_and]
    have hheap : load mem 12 4 + load mem 16 4 ≤ region.len := h.heap_end
    exact inMapping_iff hheap
  · obtain ⟨e, he⟩ := validate_control_of_not_accepted h
    simp [he, h]

/-- A mapping of one page. -/
def page_mapping : ShmRegion := ⟨0, 4096, "p-n", 0, 0, 0⟩

/-- A header that describes more slots than a page can hold. -/
def oversized_header : Memory :=
  write (write (write (write (fun _ => 0) 0 (encodeLE 4 SHM_MAGIC)) 4 (encodeLE 4 SHM_VERSION))
    8 (encodeLE 4 1000)) 12 (encodeLE 4 64)

/-- **The slot table of an accepted header may leave the mapping.** -/
theorem accepted_table_outside_mapping : ¬ page_mapping.TakesOverSafely oversized_header := by
  have haccepted : HeaderAccepted page_mapping oversized_header := ⟨by decide, by decide, by decide⟩
  have hslots : load oversized_header 8 4 = 1000 := by decide
  rw [TakesOverSafely, validate_control_in_place_eq, validate_control_of_accepted haccepted]
  rintro ⟨-, hmapping⟩
  have hlast := hmapping.slots 999 (by rw [hslots]; decide)
  exact absurd ((span_subset_iff (by decide)).mp hlast).2 (by decide)

end ShmRegion

/-! ### One layout on both sides -/

/-- The 32-bit offsets that the writers store are the offsets of the slot's own arena. -/
structure ShmRegion.ExactOffsets (region : ShmRegion) : Prop where
  metadata : ∀ (d : Direction) (i : ℕ), i < region.num_slots →
    (d.half (region.slot_arenas i)).1 % 2 ^ 32 = (d.half (region.slot_arenas i)).1
  body : ∀ (d : Direction) (i meta_len body_len offset : ℕ), i < region.num_slots →
    arena_body_offset (d.half (region.slot_arenas i)).1 (d.half (region.slot_arenas i)).2
      meta_len body_len =
      some offset → offset = (d.half (region.slot_arenas i)).1 + align8 meta_len

/-- Two handles that mean the same places. -/
structure Agreement (hub worker : ShmRegion) : Prop where
  num_slots : worker.num_slots = hub.num_slots
  heap_offset : worker.heap_offset = hub.heap_offset
  heap_size : worker.heap_size = hub.heap_size
  arenas : ∀ i, worker.slot_arenas i = hub.slot_arenas i
  hub_exact : hub.ExactOffsets
  worker_exact : worker.ExactOffsets

theorem ShmRegion.exactOffsets_of_lt {region : ShmRegion} (h : region.heap_size < 2 ^ 32) :
    region.ExactOffsets where
  metadata d i hi := by
    have hend := half_end_le d hi
    exact Nat.mod_eq_of_lt (by omega)
  body d i meta_len body_len offset hi hoffset := by
    have hend := half_end_le d hi
    simp only [arena_body_offset] at hoffset
    split at hoffset
    · obtain rfl := Option.some.inj hoffset
      exact Nat.mod_eq_of_lt (by omega)
    · cases hoffset

/-- What the hub has laid out is what every other handle to the mapping takes over. -/
def ShmRegion.LaysOutForAll (region : ShmRegion) (config : SlotBusConfig) (mem : Memory) : Prop :=
  ∀ hub bytes, (init_control_in_place config).run.run (region, mem) = (.ok (), (hub, bytes)) →
    ∀ other : ShmRegion, other.len = region.len →
      ∃ worker, (validate_control_in_place bytes).run.run other = (.ok (), worker) ∧
        Agreement hub worker

theorem ShmRegion.init_control_fits {region : ShmRegion} {config : SlotBusConfig} {mem : Memory} :
    (∃ s, region.init_control config mem = .ok s) ↔
      max config.region_size (SHM_HEADER_SIZE + config.num_slots * SLOT_META_SIZE) ≤
        region.len := by
  have hneeded : (compute_layout config.num_slots config.region_size).1 +
      (compute_layout config.num_slots config.region_size).2 =
      max config.region_size (SHM_HEADER_SIZE + config.num_slots * SLOT_META_SIZE) := by
    simp only [compute_layout]
    omega
  simp only [init_control, hneeded]
  split
  · simp
    omega
  · simp
    omega

/-- The header holds the true size of a heap of less than 4 GiB only. -/
theorem ShmRegion.laysOutForAll_of_fits {region hub : ShmRegion} {config : SlotBusConfig}
    {mem bytes : Memory} (h : region.init_control config mem = .ok (hub, bytes))
    (hmax : config.num_slots ≤ 256) :
    region.LaysOutForAll config mem ↔ hub.heap_size < 2 ^ 32 := by
  obtain ⟨-, hoffset, -⟩ := init_control_layout h
  simp only [SHM_HEADER_SIZE, SLOT_META_SIZE] at hoffset
  have hrun : (init_control_in_place config).run.run (region, mem) = (.ok (), (hub, bytes)) := by
    rw [init_control_in_place_eq, h]
  have hend := (init_control_bytes h).1
  constructor
  · intro hall
    obtain ⟨worker, hvalidate, hagree⟩ := hall hub bytes hrun region rfl
    rw [validate_control_in_place_eq] at hvalidate
    split at hvalidate
    · rename_i worker' hok
      obtain ⟨-, rfl⟩ := Prod.mk.inj hvalidate
      have hlt := decodeLE_lt (read bytes 16 4)
      rw [read_length] at hlt
      calc hub.heap_size = load bytes 16 4 := by
            rw [← hagree.heap_size, (validate_control_layout hok).2.2]
        _ < 256 ^ 4 := hlt
        _ = 2 ^ 32 := by norm_num
    · cases (Prod.mk.inj hvalidate).1
  · rintro hheap hub' bytes' hrun' other hlen
    obtain ⟨-, hstate⟩ := Prod.mk.inj (hrun.symm.trans hrun')
    obtain ⟨rfl, rfl⟩ := Prod.mk.inj hstate
    have hvalidate := validate_control_of_init h (by omega) hheap (hlen ▸ hend : _ ≤ other.len)
    refine ⟨{ other with
      num_slots := hub.num_slots, heap_offset := hub.heap_offset, heap_size := hub.heap_size },
      by rw [validate_control_in_place_eq, hvalidate], rfl, rfl, rfl, fun _ => rfl, ?_, ?_⟩
    · exact exactOffsets_of_lt hheap
    · exact exactOffsets_of_lt hheap

namespace ShmRegion

/-- **When hub and worker agree on the layout.**  Nothing bounds the region size of a configuration,
and the header has 32 bits for the size of the heap. -/
theorem init_control_agreement_iff (region : ShmRegion) (config : SlotBusConfig) (mem : Memory)
    (hmax : config.num_slots ≤ 256) :
    region.LaysOutForAll config mem ↔
      region.len < max config.region_size (SHM_HEADER_SIZE + config.num_slots * SLOT_META_SIZE) ∨
        config.region_size < 2 ^ 32 + (SHM_HEADER_SIZE + config.num_slots * SLOT_META_SIZE) := by
  by_cases hfits :
      max config.region_size (SHM_HEADER_SIZE + config.num_slots * SLOT_META_SIZE) ≤ region.len
  · obtain ⟨⟨hub, bytes⟩, h⟩ := init_control_fits.mpr hfits
    rw [laysOutForAll_of_fits h hmax]
    obtain ⟨-, hoffset, hsize⟩ := init_control_layout h
    omega
  · refine iff_of_true (fun hub bytes hrun => ?_) (.inl (by omega))
    rw [init_control_in_place_eq] at hrun
    split at hrun
    · rename_i s hok
      exact absurd (init_control_fits.mp ⟨s, hok⟩) hfits
    · cases (Prod.mk.inj hrun).1

theorem init_control_agreement_small : small_mapping.LaysOutForAll small_config fun _ => 0 :=
  (init_control_agreement_iff small_mapping small_config _ (by decide)).mpr (.inr (by decide))

/-- A configuration with a heap of exactly 4 GiB. -/
def large_config : SlotBusConfig := ⟨"n", "p", 1, 2 ^ 32 + 192⟩

/-- **Workers see an empty heap where the hub has one of 4 GiB.** -/
theorem large_heap_disagreement :
    ¬ LaysOutForAll ⟨0, 2 ^ 32 + 192, "p-n", 0, 0, 0⟩ large_config fun _ => 0 := by
  obtain ⟨⟨hub, bytes⟩, h⟩ :
      ∃ s, ShmRegion.init_control ⟨0, 2 ^ 32 + 192, "p-n", 0, 0, 0⟩ large_config
      (fun _ => 0) = .ok s :=
    init_control_fits.mpr (by decide)
  rw [laysOutForAll_of_fits h (by decide)]
  obtain ⟨-, hoffset, hsize⟩ := init_control_layout h
  rw [hsize, hoffset]
  decide

end ShmRegion
end SlotBus
