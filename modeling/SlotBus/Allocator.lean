import SlotBus.Capacity
import SlotBus.Foundation.CasLoop

/-!
# The bump allocator

`alloc_heap` and `reset_heap`, which the protocol no longer uses: any number of threads take blocks
from the front of the heap with a compare-exchange loop on `alloc_head`.

* `bump_allocator` — the loop of `alloc_heap` and the store of `reset_heap`, on a mapping whose
  other bytes change as they like;
* `concurrent_allocations` — **in every interleaving the blocks given out since the last reset lie
  one behind the other**, and `alloc_heap` fails only if the heap is full;
* `blocks_disjoint_iff` — they are disjoint exactly if the heap is smaller than 4 GiB;
* `harmless_blocks_lt` — **almost nothing of what is given out lies outside the arenas of the
  slots**.
-/

namespace SlotBus

open ByteMemory CasLoop

/-! ### The operations -/

/-- The allocation head in the header. -/
def alloc_head (mem : Memory) : UInt32 := UInt32.ofNat (load mem 20 4)

namespace ShmRegion

/-- One round of the loop of `alloc_heap`, in 64-bit arithmetic: the head to install, if the block
fits, and the answer. -/
def alloc_round (region : ShmRegion) (size : ℕ) (head : UInt32) : Option UInt32 × Option UInt32 :=
  let aligned := (size + 7) % 2 ^ 64 / 8 * 8
  let new_head := (head.toNat + aligned) % 2 ^ 64
  if new_head > region.heap_size then (none, none) else (some (UInt32.ofNat new_head), some head)

/-- Take `size` bytes from the inline heap. -/
def alloc_heap (region : ShmRegion) (size : ℕ) : Method UInt32 (Option UInt32) :=
  .loop (region.alloc_round size)

/-- Give the whole heap back. -/
def reset_heap : Method UInt32 (Option UInt32) := .store 0 none

end ShmRegion

/-- A call of the allocator. -/
inductive HeapCall where
  | alloc_heap (size : ℕ)
  | reset_heap
  deriving DecidableEq

/-- No slice is longer than this. -/
def HeapCall.Sized : HeapCall → Prop
  | .alloc_heap size => size < 2 ^ 63
  | .reset_heap => True

theorem alloc_head_write (mem : Memory) (v : UInt32) :
    alloc_head (write mem 20 (encodeLE 4 v.toNat)) = v := by
  have hv : v.toNat < 256 ^ 4 := v.toNat_lt
  rw [alloc_head, load_write_same, Nat.mod_eq_of_lt hv]
  exact UInt32.ofNat_toNat

/-- The threads that call the allocator of a region. -/
def ShmRegion.bump_allocator (region : ShmRegion) :
    Object HeapCall UInt32 (Option UInt32) Memory where
  method
    | .alloc_heap size => region.alloc_heap size
    | .reset_heap => ShmRegion.reset_heap
  cell := alloc_head
  put v mem := write mem 20 (encodeLE 4 v.toNat)
  cell_put v mem := alloc_head_write mem v
  environment mem mem' := AgreeOn (span 20 4) mem mem'
  cell_environment h := congrArg UInt32.ofNat (load_congr h).symm

/-! ### Blocks -/

/-- Bytes that were given out. -/
structure Block where
  offset : ℕ
  size : ℕ
  deriving DecidableEq

/-- The bytes that are reserved for a block. -/
def Block.bytes (region : ShmRegion) (b : Block) : Set ℕ :=
  span (region.heap_offset + b.offset) (align8 b.size)

/-- The blocks that have been given out since the last reset, after one more call. -/
def served (blocks : List Block) : HeapCall × Option UInt32 → List Block
  | (.alloc_heap size, some head) => blocks ++ [⟨head.toNat, size⟩]
  | (.alloc_heap _, none) => blocks
  | (.reset_heap, _) => []

/-- The blocks that have been given out since the last reset. -/
def live_blocks (calls : List (HeapCall × Option UInt32)) : List Block := calls.foldl served []

/-- Blocks one behind the other, from the start of the heap to the head. -/
inductive Tiles : List Block → ℕ → Prop where
  | nil : Tiles [] 0
  | snoc {blocks : List Block} {head : ℕ} (size : ℕ) (h : Tiles blocks head) :
      Tiles (blocks ++ [⟨head, size⟩]) (head + align8 size)

section Tiling

variable {blocks : List Block} {head : ℕ}

theorem Tiles.end_le (h : Tiles blocks head) : ∀ b ∈ blocks, b.offset + align8 b.size ≤ head := by
  induction h with
  | nil => exact nofun
  | @snoc blocks head size _ ih =>
      intro b hb
      rcases List.mem_append.mp hb with hold | hnew
      · have hle := ih b hold
        omega
      · obtain rfl := List.mem_singleton.mp hnew
        exact le_rfl

theorem Tiles.ordered (h : Tiles blocks head) :
    blocks.Pairwise fun b c => b.offset + align8 b.size ≤ c.offset := by
  induction h with
  | nil => exact .nil
  | snoc size h ih =>
      refine List.pairwise_append.mpr ⟨ih, List.pairwise_singleton _ _, fun b hb c hc => ?_⟩
      obtain rfl := List.mem_singleton.mp hc
      exact h.end_le b hb

theorem Tiles.aligned (h : Tiles blocks head) : 8 ∣ head ∧ ∀ b ∈ blocks, 8 ∣ b.offset := by
  induction h with
  | nil => exact ⟨Nat.dvd_zero 8, nofun⟩
  | snoc size _ ih =>
      refine ⟨Nat.dvd_add ih.1 (dvd_align8 size), fun b hb => ?_⟩
      rcases List.mem_append.mp hb with hold | hnew
      · exact ih.2 b hold
      · obtain rfl := List.mem_singleton.mp hnew
        exact ih.1

theorem Tiles.total (h : Tiles blocks head) : head = (blocks.map fun b => align8 b.size).sum := by
  induction h with
  | nil => rfl
  | snoc size _ ih =>
      rw [List.map_append, List.sum_append, ← ih]
      rfl

end Tiling

/-! ### One call after the other -/

section Calls

variable {region : ShmRegion}

theorem alloc_round_eq {size : ℕ} (hsize : size < 2 ^ 63) (head : UInt32) :
    region.alloc_round size head = if region.heap_size < head.toNat + align8 size then (none, none)
      else (some (UInt32.ofNat (head.toNat + align8 size)), some head) := by
  have hhead : head.toNat < 2 ^ 32 := head.toNat_lt
  have haligned : (size + 7) % 2 ^ 64 / 8 * 8 = align8 size := by
    rw [align8, Nat.mod_eq_of_lt (by omega)]
  have hsum : head.toNat + align8 size < 2 ^ 64 := by
    unfold align8
    omega
  simp only [ShmRegion.alloc_round, haligned, Nat.mod_eq_of_lt hsum, gt_iff_lt]

/-- What the calls leave behind: the blocks fill the heap from its start, and a call that failed did
not fit. -/
structure Allocated (region : ShmRegion) (calls : List (HeapCall × Option UInt32)) (head : UInt32) :
    Prop where
  tiles : Tiles (live_blocks calls) head.toNat
  fits : head.toNat ≤ region.heap_size
  full : ∀ before size after, calls = before ++ (.alloc_heap size, none) :: after →
    region.heap_size < ((live_blocks before).map fun b => align8 b.size).sum + align8 size

theorem Allocated.start (region : ShmRegion) : Allocated region [] 0 :=
  ⟨.nil, Nat.zero_le _, fun before size after h => by simp at h⟩

theorem live_blocks_snoc (calls : List (HeapCall × Option UInt32)) (c : HeapCall × Option UInt32) :
    live_blocks (calls ++ [c]) = served (live_blocks calls) c := by
  rw [live_blocks, List.foldl_append]
  rfl

/-- A call that does not fail for lack of space. -/
theorem Allocated.snoc {calls : List (HeapCall × Option UInt32)} {head head' : UInt32}
    {c : HeapCall × Option UInt32} (h : Allocated region calls head)
    (htiles : Tiles (served (live_blocks calls) c) head'.toNat)
    (hfits : head'.toNat ≤ region.heap_size) (hfull : ∀ size, c = (.alloc_heap size, none) →
      region.heap_size < head.toNat + align8 size) :
    Allocated region (calls ++ [c]) head' := by
  refine ⟨?_, hfits, fun before size after heq => ?_⟩
  · rw [live_blocks_snoc]
    exact htiles
  · rcases after.eq_nil_or_concat with rfl | ⟨rest, last, rfl⟩
    · obtain ⟨rfl, hc⟩ := List.append_inj' heq rfl
      rw [← h.tiles.total]
      exact hfull size (List.singleton_inj.mp hc)
    · rw [List.concat_eq_append, ← List.cons_append, ← List.append_assoc] at heq
      exact h.full before size rest (List.append_inj' heq rfl).1

/-- **The calls one after the other**: the heap fills up from its start. -/
theorem allocated_of_sequential (hheap : region.heap_size < 2 ^ 32)
    {calls : List (HeapCall × Option UInt32)} {head : UInt32}
    (h : Sequential region.bump_allocator.method 0 calls head) (hsized : ∀ c ∈ calls, c.1.Sized) :
    Allocated region calls head := by
  induction h with
  | nil => exact .start region
  | @snoc calls head op h ih =>
      have hbefore := ih fun c hc => hsized c (List.mem_append_left _ hc)
      have hop : op.Sized := hsized _ (List.mem_append_right _ (List.mem_singleton_self _))
      cases op with
      | reset_heap => exact hbefore.snoc .nil (Nat.zero_le _) fun _ hc => by cases hc
      | alloc_heap size =>
          have happly : (region.bump_allocator.method (.alloc_heap size)).apply head =
              if region.heap_size < head.toNat + align8 size then (head, none)
              else (UInt32.ofNat (head.toNat + align8 size), some head) := by
            show (Method.loop (region.alloc_round size)).apply head = _
            rw [Method.apply, alloc_round_eq hop]
            split
            · rfl
            · rfl
          rw [happly]
          split
          · rename_i hfull
            refine hbefore.snoc hbefore.tiles hbefore.fits fun size' hc => ?_
            cases hc
            exact hfull
          · rename_i hfits
            have hnew : (UInt32.ofNat (head.toNat + align8 size)).toNat =
                head.toNat + align8 size :=
              UInt32.toNat_ofNat_of_lt' (show head.toNat + align8 size < 2 ^ 32 by omega)
            refine hbefore.snoc ?_ ?_ fun _ hc => by cases hc
            · rw [hnew]
              exact hbefore.tiles.snoc size
            · rw [hnew]
              omega

end Calls

/-! ### Any number of threads -/

/-- Blocks of the heap that do not touch each other. -/
structure Apart (region : ShmRegion) (blocks : List Block) : Prop where
  disjoint : blocks.Pairwise fun b c => Disjoint (b.bytes region) (c.bytes region)
  inside : ∀ b ∈ blocks, b.bytes region ⊆ heap region
  aligned : ∀ b ∈ blocks, 8 ∣ b.offset

theorem Allocated.apart {region : ShmRegion} {calls : List (HeapCall × Option UInt32)}
    {head : UInt32} (h : Allocated region calls head) : Apart region (live_blocks calls) := by
  refine ⟨h.tiles.ordered.imp fun hle => disjoint_span (.inl (by omega)), fun b hb x hx =>
    ?_, h.tiles.aligned.2⟩
  have hend := h.tiles.end_le b hb
  have hfits := h.fits
  obtain ⟨hge, hlt⟩ := hx
  exact ⟨by omega, by omega⟩

section Threads

variable {Thread : Type} [DecidableEq Thread] {region : ShmRegion} {mem : Memory}
  {σ : State Thread HeapCall UInt32 (Option UInt32) Memory}

/-- **The allocator under contention**: every call takes effect at one moment between its call and
its return; in the order of these moments the blocks given out since the last reset lie one behind
the other in the heap, a call that failed did not fit, and nobody tries again more often than others
are served. -/
theorem concurrent_allocations (hheap : region.heap_size < 2 ^ 32) (hhead : alloc_head mem = 0)
    (h : Reaches region.bump_allocator mem σ) (hsized : ∀ c ∈ points σ.history, c.1.Sized) :
    (∀ t, Orderly t σ.history (σ.phase t).stage) ∧
      Allocated region (points σ.history) (alloc_head σ.shared) ∧
      Apart region (live_blocks (points σ.history)) ∧
        ∀ t, retries t σ.history ≤ others t σ.history := by
  have hlinearized := linearizable h
  have hsequential :
      Sequential region.bump_allocator.method (alloc_head mem) (points σ.history)
      (alloc_head σ.shared) :=
    hlinearized.sequential
  rw [hhead] at hsequential
  have hallocated := allocated_of_sequential hheap hsequential hsized
  exact ⟨hlinearized.orderly, hallocated, hallocated.apart, retries_le h⟩

/-- Two threads race for the start of the heap, and the one that loses gets the next block. -/
theorem concurrent_allocations_small : ∃ σ : State ℕ HeapCall UInt32 (Option UInt32) Memory,
    retries 0 σ.history = 1 ∧
    live_blocks (points σ.history) = [⟨0, 5⟩, ⟨8, 20⟩] ∧ Apart small_region [⟨0, 5⟩, ⟨8, 20⟩] := by
  have hrun : (play small_region.bump_allocator
      [.call 0 (.alloc_heap 20), .act 0, .call 1 (.alloc_heap 5), .act 1, .act 1, .act 0,
        .act 0, .act 0, .act 0]
      (State.start small_memory)).map (fun σ => (retries 0 σ.history, points σ.history)) =
      some (1, [(.alloc_heap 5, some 0), (.alloc_heap 20, some 8)]) := by decide +kernel
  obtain ⟨σ, hplay, hσ⟩ := Option.map_eq_some_iff.mp hrun
  obtain ⟨hretries, hpoints⟩ := Prod.mk.inj hσ
  have hsized : ∀ c ∈ points σ.history, c.1.Sized := by
    rw [hpoints]
    simp [HeapCall.Sized]
  have hlive : live_blocks (points σ.history) = [⟨0, 5⟩, ⟨8, 20⟩] := by
    rw [hpoints]
    rfl
  obtain ⟨-, -, hapart, -⟩ := concurrent_allocations (by decide) rfl (reaches_of_play hplay) hsized
  rw [hlive] at hapart
  exact ⟨σ, hretries, hlive, hapart⟩

/-- **Blocks do not overlap exactly if the heap is smaller than 4 GiB**: from there on the new head
is cut off. -/
theorem blocks_disjoint_iff [Inhabited Thread] (hhead : alloc_head mem = 0) :
    (∀ σ : State Thread HeapCall UInt32 (Option UInt32) Memory,
      Reaches region.bump_allocator mem σ →
      (∀ c ∈ points σ.history, c.1.Sized) → Apart region (live_blocks (points σ.history))) ↔
      region.heap_size < 2 ^ 32 := by
  constructor
  · intro hapart
    by_contra hlarge
    have hcall : ∀ {calls : List (HeapCall × Option UInt32)} {head : UInt32} (size : ℕ),
        Sequential region.bump_allocator.method 0 calls head →
          head.toNat + align8 size ≤ 2 ^ 32 → size < 2 ^ 32 →
        Sequential region.bump_allocator.method 0 (calls ++ [(.alloc_heap size, some head)])
          (UInt32.ofNat (head.toNat + align8 size)) := by
      intro calls head size h hfits hsize
      have hsnoc := h.snoc (.alloc_heap size)
      have happly : (region.bump_allocator.method (.alloc_heap size)).apply head =
          (UInt32.ofNat (head.toNat + align8 size), some head) := by
        show (Method.loop (region.alloc_round size)).apply head = _
        rw [Method.apply, alloc_round_eq (by omega), if_neg (by omega)]
        rfl
      rw [happly] at hsnoc
      exact hsnoc
    -- the second block ends at 4 GiB, and the head is back at 0
    have hrun :=
      hcall 8 (hcall 8 (hcall (2 ^ 32 - 8) .nil (by decide) (by decide)) (by decide) (by decide))
      (by decide) (by decide)
    rw [← hhead] at hrun
    obtain ⟨σ, hreach, hpoints, -, -⟩ :=
      exists_run (O := region.bump_allocator) (default : Thread) hrun
    have hblocks := hapart σ hreach
    rw [hpoints] at hblocks
    have hdisjoint := (hblocks (by simp [HeapCall.Sized])).disjoint
    rw [hhead] at hdisjoint
    have hthree : [(⟨0, 2 ^ 32 - 8⟩ : Block), ⟨2 ^ 32 - 8, 8⟩, ⟨0, 8⟩].Pairwise
        fun b c => Disjoint (b.bytes region) (c.bytes region) := hdisjoint
    have hfirst : Disjoint (Block.bytes region ⟨0, 2 ^ 32 - 8⟩) (Block.bytes region ⟨0, 8⟩) :=
      (List.pairwise_cons.mp hthree).1 _ (.tail _ (.head _))
    have hmem : region.heap_offset ∈ Block.bytes region ⟨0, 2 ^ 32 - 8⟩ :=
      ⟨le_rfl, by simp [align8]⟩
    have hmem' : region.heap_offset ∈ Block.bytes region ⟨0, 8⟩ := ⟨le_rfl, by simp [align8]⟩
    exact Set.disjoint_left.mp hfirst hmem hmem'
  · intro hheap σ hreach hsized
    exact (concurrent_allocations hheap hhead hreach hsized).2.2.1

/-- With a heap of 4 GiB there are blocks that overlap. -/
theorem blocks_disjoint_iff_large : ¬ ∀ σ : State ℕ HeapCall UInt32 (Option UInt32) Memory,
    Reaches (ShmRegion.mk 0 0 "p-n" 1 192 (2 ^ 32)).bump_allocator (fun _ => 0) σ →
      (∀ c ∈ points σ.history, c.1.Sized) →
        Apart (ShmRegion.mk 0 0 "p-n" 1 192 (2 ^ 32)) (live_blocks (points σ.history)) :=
  fun h => absurd ((blocks_disjoint_iff rfl).mp h) (by decide)

/-- Blocks outside all arenas lie in what the arenas leave over at the end of the heap. -/
theorem Tiles.harmless {blocks : List Block} {head : ℕ} (h : Tiles blocks head)
    (hfits : head ≤ region.heap_size) {rest : List Block} (hrest : rest.Sublist blocks)
    (hharmless : ∀ b ∈ rest, ∀ d, ∀ i < region.num_slots,
      Disjoint (b.bytes region) (arena region d i)) :
    (rest.map fun b => align8 b.size).sum ≤ head - region.num_slots *
      arena_size region.num_slots region.heap_size := by
  induction h generalizing rest with
  | nil =>
      rw [List.sublist_nil.mp hrest]
      exact Nat.zero_le _
  | @snoc blocks head size h ih =>
      obtain ⟨before, last, rfl, hbefore, hlast⟩ := List.sublist_append_iff.mp hrest
      have hsum := ih (by omega) hbefore fun b hb => hharmless b (List.mem_append_left _ hb)
      rw [List.map_append, List.sum_append]
      rcases List.sublist_singleton.mp hlast with rfl | rfl
      · simp only [List.map_nil, List.sum_nil]
        omega
      · have hnone := hharmless ⟨head, size⟩ (List.mem_append_right _ (List.mem_singleton_self _))
        simp only [List.map_cons, List.map_nil, List.sum_cons, List.sum_nil]
        rcases Nat.eq_zero_or_pos (align8 size) with hzero | hpos
        · omega
        · -- its first byte is in no arena
          have hmem : region.heap_offset + head ∈ Block.bytes region ⟨head, size⟩ :=
            ⟨le_rfl, by simpa using hpos⟩
          have hunowned : region.heap_offset + head ∈ unowned region :=
            ⟨⟨by omega, by omega⟩, fun d i hi => Set.disjoint_left.mp (hnone d i hi) hmem⟩
          have htail := unowned_subset region hunowned
          rw [Finset.coe_Ico, Set.mem_Ico] at htail
          omega

/-- **The blocks are in the arenas of the slots**: all that is given out outside of them, together,
is less than 8 bytes for each slot. -/
theorem harmless_blocks_lt (hheap : region.heap_size < 2 ^ 32) (hslots : 0 < region.num_slots)
    (hhead : alloc_head mem = 0) (h : Reaches region.bump_allocator mem σ)
    (hsized : ∀ c ∈ points σ.history, c.1.Sized) {blocks : List Block}
    (hblocks : blocks.Sublist (live_blocks (points σ.history))) (hharmless : ∀ b ∈ blocks, ∀ d,
      ∀ i < region.num_slots, Disjoint (b.bytes region) (arena region d i)) :
    (blocks.map fun b => align8 b.size).sum < 8 * region.num_slots := by
  obtain ⟨-, hallocated, -, -⟩ := concurrent_allocations hheap hhead h hsized
  have hsum := hallocated.tiles.harmless hallocated.fits hblocks hharmless
  have hfits := hallocated.fits
  have hsize := heap_size_lt hslots region.heap_size
  omega

/-- Two slots leave over one word of a heap of three words. -/
theorem harmless_blocks_small : ∃ σ : State ℕ HeapCall UInt32 (Option UInt32) Memory,
    live_blocks (points σ.history) = [⟨0, 16⟩, ⟨16, 3⟩] ∧
      ([(⟨16, 3⟩ : Block)].map fun b => align8 b.size).sum < 8 *
      (ShmRegion.mk 0 344 "p-n" 2 320 24).num_slots := by
  have hrun : (play (ShmRegion.mk 0 344 "p-n" 2 320 24).bump_allocator
      [.call 0 (.alloc_heap 16), .act 0, .act 0, .call 1 (.alloc_heap 3), .act 1, .act 1]
      (State.start fun _ => 0)).map (fun σ => points σ.history) =
      some [(.alloc_heap 16, some 0), (.alloc_heap 3, some 16)] := by decide +kernel
  obtain ⟨σ, hplay, hpoints⟩ := Option.map_eq_some_iff.mp hrun
  have hsized : ∀ c ∈ points σ.history, c.1.Sized := by
    rw [hpoints]
    simp [HeapCall.Sized]
  have hlive : live_blocks (points σ.history) = [⟨0, 16⟩, ⟨16, 3⟩] := by
    rw [hpoints]
    rfl
  have hharmless : ∀ b ∈ [(⟨16, 3⟩ : Block)], ∀ d, ∀ i < 2,
      Disjoint (b.bytes (ShmRegion.mk 0 344 "p-n" 2 320 24))
      (arena (ShmRegion.mk 0 344 "p-n" 2 320 24) d i) := by
    intro b hb d i hi
    obtain rfl := List.mem_singleton.mp hb
    refine disjoint_span (.inr ?_)
    interval_cases i <;> cases d <;> decide
  refine ⟨σ, hlive,
    harmless_blocks_lt (by decide) (by decide) rfl (reaches_of_play hplay) hsized ?_ hharmless⟩
  rw [hlive]
  exact (List.Sublist.refl _).cons _

end Threads

end SlotBus
