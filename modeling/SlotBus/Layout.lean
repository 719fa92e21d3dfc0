import SlotBus.Region

/-!
# Where the slots and their arenas lie

The addresses of a control region fall into the header, the status word of each slot, the two parts
of each slot record, and the two halves of each slot's arena.  They are pairwise disjoint; this file
is the only one that looks at the arithmetic.
-/

namespace SlotBus

open ByteMemory

/-- The addresses of a slot's status word. -/
def status_word (i : ℕ) : Set ℕ := span (slot_address i) 4

/-- The addresses of the record fields of one direction: id, method and request pointers, or status
and response pointers. -/
def record : Direction → ℕ → Set ℕ
  | .request, i => span (slot_address i + 4) 57
  | .response, i => span (slot_address i + 64) 21

/-- The addresses of the five pointer fields of one direction. -/
def pointer_fields (d : Direction) (i : ℕ) : Set ℕ := span (slot_address i + d.fields) 17

/-- The addresses of the inline heap. -/
def heap (region : ShmRegion) : Set ℕ := span region.heap_offset region.heap_size

/-- The addresses of one half of a slot's arena. -/
def arena (region : ShmRegion) (d : Direction) (i : ℕ) : Set ℕ :=
  span (region.heap_offset + (d.half (region.slot_arenas i)).1) (d.half (region.slot_arenas i)).2

/-- The heap of a handle begins after the slot table. -/
def ShmRegion.TableBelowHeap (region : ShmRegion) : Prop :=
  SHM_HEADER_SIZE + region.num_slots * SLOT_META_SIZE ≤ region.heap_offset

instance (region : ShmRegion) : Decidable region.TableBelowHeap :=
  inferInstanceAs (Decidable (_ ≤ _))

theorem disjoint_span {a n b k : ℕ} (h : a + n ≤ b ∨ b + k ≤ a) :
    Disjoint (span a n) (span b k) := by
  rw [Set.disjoint_left]
  rintro x ⟨h1, h2⟩ ⟨h3, h4⟩
  omega

theorem span_subset {a n b k : ℕ} (h1 : b ≤ a) (h2 : a + n ≤ b + k) : span a n ⊆ span b k := by
  rintro x ⟨h3, h4⟩
  exact ⟨by omega, by omega⟩

/-- Records of different slots are at least 128 bytes apart. -/
theorem slot_address_lt {i j : ℕ} (h : i < j) : slot_address i + 128 ≤ slot_address j := by
  simp only [slot_address, SLOT_META_SIZE]
  omega

theorem slot_address_heap {region : ShmRegion} (h : region.TableBelowHeap) {i : ℕ}
    (hi : i < region.num_slots) : slot_address i + 128 ≤ region.heap_offset := by
  simp only [ShmRegion.TableBelowHeap, SHM_HEADER_SIZE, SLOT_META_SIZE] at h
  simp only [slot_address, SHM_HEADER_SIZE, SLOT_META_SIZE]
  omega

/-- The layout of a freshly initialized region. -/
theorem init_control_layout {raw region : ShmRegion} {config : SlotBusConfig} {mem mem' : Memory}
    (h : raw.init_control config mem = .ok (region, mem')) :
    region.num_slots = config.num_slots ∧
      region.heap_offset = SHM_HEADER_SIZE + config.num_slots * SLOT_META_SIZE ∧
      region.heap_size = config.region_size - region.heap_offset := by
  have hlayout : compute_layout config.num_slots config.region_size =
    (SHM_HEADER_SIZE + config.num_slots * SLOT_META_SIZE,
      config.region_size - (SHM_HEADER_SIZE + config.num_slots * SLOT_META_SIZE)) := rfl
  rw [ShmRegion.init_control, hlayout] at h
  by_cases hneeded : SHM_HEADER_SIZE + config.num_slots * SLOT_META_SIZE +
      (config.region_size - (SHM_HEADER_SIZE + config.num_slots * SLOT_META_SIZE)) > raw.len
  · simp only [if_pos hneeded] at h
    cases h
  · simp only [if_neg hneeded] at h
    obtain ⟨rfl, -⟩ := Prod.mk.inj (Except.ok.inj h)
    exact ⟨rfl, rfl, rfl⟩

theorem init_control_table {raw region : ShmRegion} {config : SlotBusConfig} {mem mem' : Memory}
    (h : raw.init_control config mem = .ok (region, mem')) : region.TableBelowHeap := by
  obtain ⟨hslots, hoffset, -⟩ := init_control_layout h
  rw [ShmRegion.TableBelowHeap, hslots, hoffset]

/-! ### Status words and records -/

theorem status_word_disjoint {i j : ℕ} (h : i ≠ j) : Disjoint (status_word i) (status_word j) := by
  apply disjoint_span
  rcases Nat.lt_or_gt_of_ne h with h | h
  · have := slot_address_lt h
    omega
  · have := slot_address_lt h
    omega

theorem record_disjoint_status (d : Direction) (i j : ℕ) :
    Disjoint (record d i) (status_word j) := by
  have h1 : i < j → slot_address i + 128 ≤ slot_address j := slot_address_lt
  have h2 : j < i → slot_address j + 128 ≤ slot_address i := slot_address_lt
  have h3 : i = j → slot_address i = slot_address j := fun h => h ▸ rfl
  cases d <;> apply disjoint_span <;> omega

theorem record_disjoint {d e : Direction} {i j : ℕ} (h : d ≠ e ∨ i ≠ j) :
    Disjoint (record d i) (record e j) := by
  have h1 : i < j → slot_address i + 128 ≤ slot_address j := slot_address_lt
  have h2 : j < i → slot_address j + 128 ≤ slot_address i := slot_address_lt
  have h3 : i = j → slot_address i = slot_address j := fun h => h ▸ rfl
  cases d <;> cases e <;> apply disjoint_span <;> simp at h <;> omega

theorem pointer_fields_subset (d : Direction) (i : ℕ) : pointer_fields d i ⊆ record d i := by
  cases d <;> apply span_subset <;> simp only [Direction.fields] <;> omega

theorem status_word_disjoint_heap {region : ShmRegion} (h : region.TableBelowHeap) {i : ℕ}
    (hi : i < region.num_slots) : Disjoint (status_word i) (heap region) := by
  have := slot_address_heap h hi
  exact disjoint_span (by omega)

theorem record_disjoint_heap {region : ShmRegion} (h : region.TableBelowHeap)
    (d : Direction) {i : ℕ} (hi : i < region.num_slots) : Disjoint (record d i) (heap region) := by
  have := slot_address_heap h hi
  cases d <;> exact disjoint_span (by omega)

/-! ### Arenas -/

theorem arena_size_mul_le (num_slots heap_size : ℕ) :
    num_slots * arena_size num_slots heap_size ≤ heap_size := by
  unfold arena_size
  split
  · rename_i h
    rw [h]
    exact Nat.zero_le _
  · calc num_slots * (heap_size / num_slots / 8 * 8)
        ≤ num_slots * (heap_size / num_slots) := Nat.mul_le_mul_left _ (Nat.div_mul_le_self _ _)
      _ ≤ heap_size := Nat.mul_div_le _ _

/-- The arena of a slot lies inside the heap. -/
theorem arena_end_le {i num_slots : ℕ} (hi : i < num_slots) (heap_size : ℕ) :
    i * arena_size num_slots heap_size + arena_size num_slots heap_size ≤ heap_size := by
  have h1 := Nat.mul_le_mul_right (arena_size num_slots heap_size) (Nat.succ_le_of_lt hi)
  rw [Nat.succ_mul] at h1
  exact h1.trans (arena_size_mul_le num_slots heap_size)

/-- The arenas of two slots follow each other. -/
theorem arena_end_le_of_lt {i j : ℕ} (arena : ℕ) (h : i < j) : i * arena + arena ≤ j * arena := by
  have h1 := Nat.mul_le_mul_right arena (Nat.succ_le_of_lt h)
  rwa [Nat.succ_mul] at h1

theorem half_end_le (d : Direction) {region : ShmRegion} {i : ℕ} (hi : i < region.num_slots) :
    (d.half (region.slot_arenas i)).1 + (d.half (region.slot_arenas i)).2 ≤ region.heap_size := by
  have h := arena_end_le hi region.heap_size
  cases d <;> simp only [Direction.half, ShmRegion.slot_arenas, slot_arenas] <;> omega

theorem arena_subset_heap (d : Direction) {region : ShmRegion} {i : ℕ} (hi : i < region.num_slots) :
    arena region d i ⊆ heap region := by
  have := half_end_le d hi
  exact span_subset (by omega) (by omega)

/-- **Arenas are disjoint**: the halves of one slot, and the halves of different slots. -/
theorem arena_disjoint (region : ShmRegion) {d e : Direction} {i j : ℕ} (h : d ≠ e ∨ i ≠ j) :
    Disjoint (arena region d i) (arena region e j) := by
  have h1 : i < j → _ := arena_end_le_of_lt (arena_size region.num_slots region.heap_size)
  have h2 : j < i → _ := arena_end_le_of_lt (arena_size region.num_slots region.heap_size)
  have h3 : i = j → i * arena_size region.num_slots region.heap_size =
      j * arena_size region.num_slots region.heap_size := fun h => h ▸ rfl
  cases d <;> cases e <;> apply disjoint_span <;> simp at h <;>
    simp only [Direction.half, ShmRegion.slot_arenas, slot_arenas] <;> omega

theorem arena_disjoint_status {region : ShmRegion} (h : region.TableBelowHeap)
    (d : Direction) {i j : ℕ} (hi : i < region.num_slots) (hj : j < region.num_slots) :
    Disjoint (arena region d i) (status_word j) :=
  ((status_word_disjoint_heap h hj).mono_right (arena_subset_heap d hi)).symm

theorem arena_disjoint_record {region : ShmRegion} (h : region.TableBelowHeap) (d e : Direction)
    {i j : ℕ} (hi : i < region.num_slots) (hj : j < region.num_slots) :
    Disjoint (arena region d i) (record e j) :=
  ((record_disjoint_heap h e hj).mono_right (arena_subset_heap d hi)).symm

end SlotBus
