import SlotBus.Effects
import SlotBus.Names

/-!
# One half of a slot

A request or a response of slot `i` owns the fields of its direction in the slot record, one half of
the slot's arena, and the overflow names of that direction and slot.  `SlotHalf` is the pair of a
direction and a slot as one handle to the region sees it; this file says what belongs to it, which
actions stay inside it, and what it looks like when a payload has been written.

* `SlotHalf.Own` — the actions a writer of the half performs;
* `Quiet` — what the owner of the half may assume of a step that is not its own;
* `Recorded` — what the bytes of the half say about a payload, for lengths of any size;
* `Backed` — the overflow region of a payload; kept by every quiet step.
-/

namespace SlotBus

open ByteMemory AtomicProgram

/-- One direction of one slot, as one handle to the region sees it. -/
structure SlotHalf where
  direction : Direction
  target : Target
  region : ShmRegion
  config : SlotBusConfig
  slot : ℕ

/-- Where `write_body` puts a body. -/
inductive Placement where
  | empty
  | inline (offset : ℕ)
  | overflow (generation : ℕ) (region : OverflowRegion)

namespace Placement

/-- The recorded body offset. -/
def offset : Placement → ℕ
  | .inline offset => offset
  | _ => 0

/-- The recorded overflow marker. -/
def marker : Placement → UInt8
  | .overflow generation _ => UInt8.ofNat (generation + 1)
  | _ => OVERFLOW_INLINE

/-- The handle the writer gets back. -/
def handle : Placement → Option OverflowRegion
  | .overflow _ region => some region
  | _ => none

/-- The overflow region of a payload, if it has one, can be opened by its name. -/
def Live (P : Placement) (w : World) : Prop :=
  ∀ r, P.handle = some r → w.names r.name = some r.segment

end Placement

namespace SlotHalf

variable (H : SlotHalf)

/-- The address of a pointer field, counted from the first one. -/
def field (k : ℕ) : ℕ := slot_address H.slot + (H.direction.fields + k)

/-- Heap-relative offset of the half arena. -/
def base : ℕ := (H.direction.half (H.region.slot_arenas H.slot)).1

/-- Length of the half arena. -/
def capacity : ℕ := (H.direction.half (H.region.slot_arenas H.slot)).2

/-- The addresses that belong to the half. -/
def footprint : Set ℕ := record H.direction H.slot ∪ arena H.region H.direction H.slot

/-- The OS name at a generation. -/
def name (generation : ℕ) : Option String :=
  H.direction.overflow_name_gen H.config H.target H.slot generation

/-- The overflow names that belong to the half. -/
def OwnName (n : String) : Prop := ∃ g ≤ MAX_OVERFLOW_GENERATION, H.name g = some n

/-- The actions of a writer of the half.  If the heap is too large for the 32-bit offset fields, its
writes still stay in the heap, but not in the right arena. -/
def Own (t : Thread) (log : List Entry) : Action → Prop
  | .write a bytes =>
      (span a bytes.length ⊆ record H.direction H.slot ∨ span a bytes.length ⊆ heap H.region) ∧
        (H.region.heap_size < 2 ^ 32 → span a bytes.length ⊆ H.footprint)
  | .shm_create n _ => H.OwnName n
  | .shm_reclaim n => H.OwnName n
  | .shm_write r _ => H.OwnName r.name ∧ Created_by t r log
  | .panic => True
  | _ => False

/-- The part of the half whose bytes are guaranteed: the record, and under the condition `faithful`
the arena. -/
def area (faithful : Prop) : Set ℕ :=
  record H.direction H.slot ∪ {x | faithful ∧ x ∈ arena H.region H.direction H.slot}

/-- A half of an existing slot. -/
structure InTable : Prop where
  table : H.region.TableBelowHeap
  slot_lt : H.slot < H.region.num_slots

/-- A half of an existing slot, in a region whose offsets fit into the record. -/
structure Sound : Prop extends H.InTable where
  heap_lt : H.region.heap_size < 2 ^ 32

variable {H}

theorem half_fits (h : H.slot < H.region.num_slots) : H.base + H.capacity ≤ H.region.heap_size :=
  half_end_le H.direction h

theorem Sound.base_lt (h : H.Sound) : H.base < 2 ^ 32 :=
  lt_of_le_of_lt ((Nat.le_add_right _ _).trans (half_fits h.slot_lt)) h.heap_lt

theorem Sound.base_mod (h : H.Sound) : H.base % 2 ^ 32 = H.base := Nat.mod_eq_of_lt h.base_lt

/-- The record of the slot ends before the heap. -/
theorem InTable.field_heap (h : H.InTable) {k : ℕ} (hk : k ≤ 17) :
    H.field k ≤ H.region.heap_offset := by
  have h1 := slot_address_heap h.table h.slot_lt
  unfold SlotHalf.field
  cases H.direction <;> simp only [Direction.fields] <;> omega

theorem field_add (k n : ℕ) : H.field k + n = H.field (k + n) := by
  simp only [field, Nat.add_assoc]

theorem field_subset {k n : ℕ} (h : k + n ≤ 17) :
    span (H.field k) n ⊆ record H.direction H.slot := by
  refine Set.Subset.trans ?_ (pointer_fields_subset H.direction H.slot)
  exact span_subset (by simp only [field]; omega) (by simp only [field]; omega)

theorem arena_subset {off n : ℕ} (h1 : H.base ≤ off) (h2 : off + n ≤ H.base + H.capacity) :
    span (H.region.heap_offset + off) n ⊆ arena H.region H.direction H.slot := by
  simp only [base, capacity] at h1 h2
  exact span_subset (by omega) (by omega)

theorem record_subset_footprint : record H.direction H.slot ⊆ H.footprint := Set.subset_union_left

theorem arena_subset_footprint : arena H.region H.direction H.slot ⊆ H.footprint :=
  Set.subset_union_right

theorem record_subset_area {faithful : Prop} : record H.direction H.slot ⊆ H.area faithful :=
  Set.subset_union_left

theorem area_subset_footprint {faithful : Prop} : H.area faithful ⊆ H.footprint :=
  Set.union_subset_union_right _ fun _ hx => hx.2

theorem footprint_subset_area {faithful : Prop} (hf : faithful) : H.footprint ⊆ H.area faithful :=
  Set.union_subset_union_right _ fun _ hx => ⟨hf, hx⟩

/-- No status word lies in a footprint. -/
theorem footprint_disjoint_status (h : H.InTable) {j : ℕ} (hj : j < H.region.num_slots) :
    Disjoint H.footprint (status_word j) :=
  Set.disjoint_union_left.mpr ⟨record_disjoint_status _ _ _,
    arena_disjoint_status h.table H.direction h.slot_lt hj⟩

/-- The footprints of two halves of one region. -/
theorem footprint_disjoint {K : SlotHalf} (hregion : K.region = H.region) (hH : H.InTable)
    (hK : K.InTable) (h : H.direction ≠ K.direction ∨ H.slot ≠ K.slot) :
    Disjoint H.footprint K.footprint := by
  have hKslot : K.slot < H.region.num_slots := hregion ▸ hK.slot_lt
  unfold footprint
  rw [hregion]
  refine Set.disjoint_union_left.mpr
    ⟨Set.disjoint_union_right.mpr ⟨record_disjoint h, ?_⟩, Set.disjoint_union_right.mpr ⟨?_, ?_⟩⟩
  · exact (arena_disjoint_record hH.table K.direction H.direction hKslot hH.slot_lt).symm
  · exact arena_disjoint_record hH.table H.direction K.direction hH.slot_lt hKslot
  · exact arena_disjoint H.region h

/-- Different halves of one bus have no overflow name in common. -/
theorem own_name_disjoint {K : SlotHalf} (hconfig : K.config = H.config)
    (htarget : K.target = H.target) (hbound : H.target = .macos → H.slot < 1000 ∧ K.slot < 1000)
    (h : H.direction ≠ K.direction ∨ H.slot ≠ K.slot) {n : String} (hH : H.OwnName n) :
    ¬ K.OwnName n := by
  rintro ⟨k, hk, hKn⟩
  obtain ⟨g, hg, hHn⟩ := hH
  unfold name at hKn hHn
  rw [hconfig, htarget] at hKn
  simp only [MAX_OVERFLOW_GENERATION] at hg hk
  obtain ⟨hd, hs, -⟩ :=
    overflow_name_gen_injective (tailKept_of_lt _ fun ht => ⟨(hbound ht).1, by omega⟩)
    (tailKept_of_lt _ fun ht => ⟨(hbound ht).2, by omega⟩) hHn hKn
  exact h.elim (fun hne => hne hd) (fun hne => hne hs)

/-! ### The bytes of a payload -/

variable (H)

/-- The mapping after placing the metadata. -/
def place_meta (meta_bytes : List UInt8) (m : Memory) : Memory :=
  write (write (write m (H.region.heap_offset + H.base % 2 ^ 32) meta_bytes)
    (H.field 0) (encodeLE 4 (H.base % 2 ^ 32))) (H.field 4) (encodeLE 2 meta_bytes.length)

/-- The mapping after recording where the body is. -/
def place_fields (offset len : ℕ) (marker : UInt8) (m : Memory) : Memory :=
  write (write (write m (H.field 8) (encodeLE 4 offset)) (H.field 12) (encodeLE 4 len))
    (H.field 16) [marker]

/-- The mapping after placing an inline body. -/
def place_inline (body : List UInt8) (m : Memory) : Placement → Memory
  | .inline offset => write m (H.region.heap_offset + offset) body
  | _ => m

/-- The mapping after placing a payload. -/
def place (meta_bytes body : List UInt8) (P : Placement) (m : Memory) : Memory :=
  H.place_fields P.offset body.length P.marker (H.place_inline body (H.place_meta meta_bytes m) P)

/-- The body lies where the placement says: an inline body behind the metadata, inside the half
arena. -/
def Placed (meta_len body_len : ℕ) : Placement → Prop
  | .empty => body_len = 0
  | .inline offset => offset = H.base + align8 meta_len ∧ offset + body_len ≤ H.base + H.capacity
  | .overflow generation r =>
      generation ≤ MAX_OVERFLOW_GENERATION ∧ H.name generation = some r.name ∧
        body_len ≤ r.len

/-- What the bytes of the half say about a payload.  The length fields hold the lengths modulo their
width. -/
structure Recorded (meta_bytes body : List UInt8) (P : Placement) (m : Memory) : Prop where
  placed : H.Placed meta_bytes.length body.length P
  meta_fits : meta_bytes.length ≤ H.capacity
  meta_offset : load m (H.field 0) 4 = H.base
  meta_len : load m (H.field 4) 2 = meta_bytes.length % 2 ^ 16
  metadata : read m (H.region.heap_offset + H.base) meta_bytes.length = meta_bytes
  body_offset : load m (H.field 8) 4 = P.offset
  body_len : load m (H.field 12) 4 = body.length % 2 ^ 32
  marker : read m (H.field 16) 1 = [P.marker]
  inline_body :
    ∀ offset, P = .inline offset → read m (H.region.heap_offset + offset) body.length = body

variable {H}

theorem le_align8 (n : ℕ) : n ≤ align8 n := by
  unfold align8
  omega

/-- The three body fields, whatever was in the mapping before. -/
theorem place_fields_loads (offset len : ℕ) (marker : UInt8) (m : Memory) :
    load (H.place_fields offset len marker m) (H.field 8) 4 = offset % 2 ^ 32 ∧
      load (H.place_fields offset len marker m) (H.field 12) 4 = len % 2 ^ 32 ∧
      read (H.place_fields offset len marker m) (H.field 16) 1 = [marker] := by
  have h12 : H.field 12 = H.field 8 + 4 := (field_add 8 4).symm
  have h16 : H.field 16 = H.field 8 + 8 := (field_add 8 8).symm
  unfold place_fields
  refine ⟨?_, ?_, read_write_same _ _ [marker]⟩
  · rw [load_write_disjoint (by omega), load_write_disjoint (by omega), load_write_same]
    norm_num
  · rw [load_write_disjoint (by omega), load_write_same]
    norm_num

/-- The body fields keep everything beside them. -/
theorem place_fields_read {offset len a n : ℕ} {marker : UInt8} {m : Memory}
    (h : a + n ≤ H.field 8 ∨ H.field 17 ≤ a) :
    read (H.place_fields offset len marker m) a n = read m a n := by
  have h12 : H.field 12 = H.field 8 + 4 := (field_add 8 4).symm
  have h16 : H.field 16 = H.field 8 + 8 := (field_add 8 8).symm
  have h17 : H.field 17 = H.field 8 + 9 := (field_add 8 9).symm
  unfold place_fields
  rw [read_write_disjoint (by simp only [List.length_cons, List.length_nil]; omega),
    read_write_disjoint (by rw [encodeLE_length]; omega),
    read_write_disjoint (by rw [encodeLE_length]; omega)]

/-- An inline body stays behind the metadata. -/
theorem place_inline_read {meta_bytes body : List UInt8} {P : Placement} {m : Memory}
    (hP : H.Placed meta_bytes.length body.length P) {a n : ℕ}
    (ha : a + n ≤ H.region.heap_offset + H.base + meta_bytes.length) :
    read (H.place_inline body m P) a n = read m a n := by
  cases P with
  | empty => rfl
  | overflow g r => rfl
  | inline offset =>
      have h1 := le_align8 meta_bytes.length
      have h2 : offset = H.base + align8 meta_bytes.length := hP.1
      exact read_write_disjoint (by omega)

/-- The metadata and its two fields. -/
theorem place_meta_loads (h : H.Sound) (meta_bytes : List UInt8) (m : Memory) :
    load (H.place_meta meta_bytes m) (H.field 0) 4 = H.base ∧
      load (H.place_meta meta_bytes m) (H.field 4) 2 = meta_bytes.length % 2 ^ 16 ∧
      read (H.place_meta meta_bytes m) (H.region.heap_offset + H.base) meta_bytes.length =
        meta_bytes := by
  have h4 : H.field 4 = H.field 0 + 4 := (field_add 0 4).symm
  have h6 : H.field 6 = H.field 0 + 6 := (field_add 0 6).symm
  have hheap : H.field 6 ≤ H.region.heap_offset := h.field_heap (by omega)
  unfold place_meta
  rw [h.base_mod]
  refine ⟨?_, ?_, ?_⟩
  · rw [load_write_disjoint (by omega), load_write_same]
    exact h.base_mod
  · rw [load_write_same]
    norm_num
  · rw [read_write_disjoint (by rw [encodeLE_length]; omega),
      read_write_disjoint (by rw [encodeLE_length]; omega), read_write_same]

theorem Placed.offset_lt (h : H.Sound) {meta_len body_len : ℕ} {P : Placement}
    (hP : H.Placed meta_len body_len P) : P.offset < 2 ^ 32 := by
  cases P with
  | empty => exact Nat.two_pow_pos 32
  | overflow g r => exact Nat.two_pow_pos 32
  | inline offset =>
      have h1 := half_fits h.slot_lt
      have h2 := h.heap_lt
      have h3 : offset + body_len ≤ H.base + H.capacity := hP.2
      show offset < 2 ^ 32
      omega

/-- **What was placed is recorded.** -/
theorem place_recorded (h : H.Sound) {meta_bytes body : List UInt8} {P : Placement}
    (hmeta : meta_bytes.length ≤ H.capacity) (hP : H.Placed meta_bytes.length body.length P)
    (m : Memory) : H.Recorded meta_bytes body P (H.place meta_bytes body P m) := by
  have h4 : H.field 4 = H.field 0 + 4 := (field_add 0 4).symm
  have h8 : H.field 8 = H.field 0 + 8 := (field_add 0 8).symm
  have h17 : H.field 17 = H.field 0 + 17 := (field_add 0 17).symm
  have hheap : H.field 17 ≤ H.region.heap_offset := h.field_heap (by omega)
  obtain ⟨hoff, hlen, hmarker⟩ := place_fields_loads (H := H) P.offset body.length P.marker
    (H.place_inline body (H.place_meta meta_bytes m) P)
  obtain ⟨hm0, hm4, hmeta_bytes⟩ := place_meta_loads h meta_bytes m
  refine ⟨hP, hmeta, ?_, ?_, ?_, ?_, hlen, hmarker, ?_⟩
  · rw [load, place, place_fields_read (by omega), place_inline_read hP (by omega)]
    exact hm0
  · rw [load, place, place_fields_read (by omega), place_inline_read hP (by omega)]
    exact hm4
  · rw [place, place_fields_read (by omega), place_inline_read hP (by omega), hmeta_bytes]
  · rw [place, hoff, Nat.mod_eq_of_lt (Placed.offset_lt h hP)]
  · rintro offset rfl
    rw [place, place_fields_read (by omega)]
    exact read_write_same _ _ body

/-- What is recorded depends on the bytes of the half only. -/
theorem Recorded.congr {meta_bytes body : List UInt8} {P : Placement} {m m' : Memory}
    (hm : AgreeOn H.footprint m m') (hr : H.Recorded meta_bytes body P m) :
    H.Recorded meta_bytes body P m' := by
  have hfield : ∀ {k n}, k + n ≤ 17 → read m (H.field k) n = read m' (H.field k) n := fun hk =>
    hm.read ((field_subset hk).trans record_subset_footprint)
  have hmeta : read m (H.region.heap_offset + H.base) meta_bytes.length =
      read m' (H.region.heap_offset + H.base) meta_bytes.length :=
    hm.read ((arena_subset le_rfl (by have := hr.meta_fits; omega)).trans arena_subset_footprint)
  refine ⟨hr.placed, hr.meta_fits, ?_, ?_, ?_, ?_, ?_, ?_, ?_⟩
  · rw [load, ← hfield (by omega)]
    exact hr.meta_offset
  · rw [load, ← hfield (by omega)]
    exact hr.meta_len
  · rw [← hmeta]
    exact hr.metadata
  · rw [load, ← hfield (by omega)]
    exact hr.body_offset
  · rw [load, ← hfield (by omega)]
    exact hr.body_len
  · rw [← hfield (by omega)]
    exact hr.marker
  · intro offset hP
    have hplaced := hP ▸ hr.placed
    have hbody := hm.read (a := H.region.heap_offset + offset) (n := body.length)
      ((arena_subset (by rw [hplaced.1]; omega) hplaced.2).trans arena_subset_footprint)
    rw [← hbody]
    exact hr.inline_body offset hP

/-- What is recorded does not depend on where the region is mapped. -/
theorem Recorded.relocate {d : Direction} {target : Target} {region region' : ShmRegion}
    {config : SlotBusConfig} {i : ℕ} {meta_bytes body : List UInt8} {P : Placement} {m : Memory}
    (hslots : region'.num_slots = region.num_slots)
    (hoffset : region'.heap_offset = region.heap_offset)
    (hsize : region'.heap_size = region.heap_size)
    (h : Recorded ⟨d, target, region, config, i⟩ meta_bytes body P m) :
    Recorded ⟨d, target, region', config, i⟩ meta_bytes body P m := by
  obtain ⟨ptr, len, name, num_slots, heap_offset, heap_size⟩ := region
  obtain ⟨ptr', len', name', num_slots', heap_offset', heap_size'⟩ := region'
  dsimp only at hslots hoffset hsize
  subst hslots hoffset hsize
  exact ⟨h.placed, h.meta_fits, h.meta_offset, h.meta_len, h.metadata, h.body_offset,
    h.body_len, h.marker,
    h.inline_body⟩

/-! ### Payloads in the world -/

variable (H) in
/-- What a step that is not the owner's leaves alone: the guaranteed bytes, and, where names are
`tracked`, the overflow regions.  Unless it is `firm`, it may take overflow names away. -/
structure Quiet (faithful tracked firm : Prop) (w w' : World) : Prop where
  memory : AgreeOn (H.area faithful) w.mem w'.mem
  names : tracked → ∀ n, H.OwnName n → w'.names n = w.names n ∨ ¬ firm ∧ w'.names n = none
  segments : tracked → ∀ t r, Created_by t r w.log → H.OwnName r.name →
    w'.segments r.segment = w.segments r.segment
  log : ∀ e ∈ w.log, e ∈ w'.log

/-- A step that changes neither the mapping nor the regions nor the history. -/
theorem Quiet.of_eq {faithful tracked firm : Prop} {w w' : World} (hmem : w'.mem = w.mem)
    (hnames : w'.names = w.names) (hsegments : w'.segments = w.segments) (hlog : w'.log = w.log) :
    H.Quiet faithful tracked firm w w' where
  memory := hmem ▸ .refl _ _
  names _ n _ := .inl (congrFun hnames n)
  segments _ _ r _ _ := congrFun hsegments r.segment
  log _ he := hlog ▸ he

variable (H) in
/-- An overflow region of the half, created by `t` and holding `body`.  Its name may have been
released, but it stands for no other region. -/
structure Backed (t : Thread) (r : OverflowRegion) (body : List UInt8) (w : World) : Prop where
  own : H.OwnName r.name
  created : Created_by t r w.log
  len : (w.segments r.segment).len = r.len
  bytes : read (w.segments r.segment).bytes 0 body.length = body
  named : ∀ s, w.names r.name = some s → s = r.segment

theorem Quiet.backed {faithful tracked firm : Prop} {w w' : World} {t : Thread} {r : OverflowRegion}
    {body : List UInt8} (h : H.Quiet faithful tracked firm w w') (ht : tracked)
    (hr : H.Backed t r body w) : H.Backed t r body w' := by
  have hseg := h.segments ht t r hr.created hr.own
  refine ⟨hr.own, h.log _ hr.created, by rw [hseg]; exact hr.len, by rw [hseg]; exact hr.bytes, ?_⟩
  intro s hs
  rcases h.names ht r.name hr.own with heq | ⟨-, hnone⟩
  · exact hr.named s (heq ▸ hs)
  · rw [hnone] at hs
    cases hs

variable (H) in
/-- A region that `t` has created for the half, at generation `g`, holding `data`.  Where it is
`firm`, the name has not been released. -/
structure Fresh (tracked firm : Prop) (t : Thread) (r : OverflowRegion) (g : ℕ) (data : List UInt8)
    (w : World) : Prop where
  generation_le : g ≤ MAX_OVERFLOW_GENERATION
  name_eq : H.name g = some r.name
  created : Created_by t r w.log
  latest : latest_region (history t w.log) = some r
  backed : tracked → H.Backed t r data w
  live : tracked → firm → w.names r.name = some r.segment

theorem Quiet.fresh {faithful tracked firm : Prop} {w w' : World} {t : Thread} {r : OverflowRegion}
    {g : ℕ} {data : List UInt8} (h : H.Quiet faithful tracked firm w w')
    (hlatest : latest_region (history t w'.log) = latest_region (history t w.log))
    (hr : H.Fresh tracked firm t r g data w) : H.Fresh tracked firm t r g data w' := by
  refine ⟨hr.generation_le, hr.name_eq, h.log _ hr.created, hlatest.trans hr.latest,
    fun ht => h.backed ht (hr.backed ht), fun ht hfirm => ?_⟩
  rcases h.names ht r.name ⟨g, hr.generation_le, hr.name_eq⟩ with heq | ⟨hnot, -⟩
  · exact heq.trans (hr.live ht hfirm)
  · exact absurd hfirm hnot

variable (H) in
/-- A payload that `t` has placed in the half, over the mapping `m`. -/
structure Filled (faithful tracked firm : Prop) (t : Thread) (meta_bytes body : List UInt8)
    (P : Placement) (m : Memory) (w : World) : Prop where
  meta_fits : meta_bytes.length ≤ H.capacity
  placed : faithful → H.Placed meta_bytes.length body.length P
  bytes : AgreeOn (H.area faithful) (H.place meta_bytes body P m) w.mem
  fresh : ∀ r, P.handle = some r → ∃ g, P = .overflow g r ∧ H.Fresh tracked firm t r g body w

theorem Quiet.filled {faithful tracked firm : Prop} {w w' : World} {t : Thread}
    {meta_bytes body : List UInt8} {P : Placement} {m : Memory}
    (h : H.Quiet faithful tracked firm w w')
    (hlatest : latest_region (history t w'.log) = latest_region (history t w.log))
    (hP : H.Filled faithful tracked firm t meta_bytes body P m w) :
    H.Filled faithful tracked firm t meta_bytes body P m w' := by
  refine ⟨hP.meta_fits, hP.placed, hP.bytes.trans h.memory, fun r hr => ?_⟩
  obtain ⟨g, heq, hfresh⟩ := hP.fresh r hr
  exact ⟨g, heq, h.fresh hlatest hfresh⟩

end SlotHalf
end SlotBus
