import SlotBus.Drain
import SlotBus.Allocator

/-!
# Joining a bus that is at work

A worker may open the control region at any time, whatever the other threads are in the middle of.

* `header_kept` — **nothing the bus does touches the header**, so the layout stays the one that the
  hub has written;
* `late_opener_agrees` — a handle that is opened during a run is accepted exactly as at the start,
  with the same layout;
* `bus_leaves_allocator_alone` — for the bump allocator, the whole traffic is only a change of other
  bytes.
-/

namespace SlotBus

open ByteMemory AtomicProgram

namespace Deployment

variable {D : Deployment} {σ σ' : Configuration bus Thread World}

/-- A plain write of the action does not touch the header. -/
def SparesHeader (a : Action) : Prop := Disjoint a.written (span 0 SHM_HEADER_SIZE)

theorem sparesHeader_of_frames {a : Action} (ha : a.Frames) : SparesHeader a := by
  cases a with
  | write x bytes =>
      obtain ⟨i, hrecord⟩ := ha
      exact ((header_disjoint_slot i).mono_right hrecord).symm
  | _ => exact Set.empty_disjoint _

theorem sparesHeader_of_fills {region : ShmRegion} (htable : region.TableBelowHeap)
    {d : Direction} {i : ℕ} {a : Action} (ha : a.fills (pointer_fields d i ∪ heap region)) :
    SparesHeader a := by
  have hfields : Disjoint (pointer_fields d i) (span 0 SHM_HEADER_SIZE) := by
    refine disjoint_span (.inr ?_)
    simp only [slot_address]
    omega
  have hheap : Disjoint (heap region) (span 0 SHM_HEADER_SIZE) := by
    refine disjoint_span (.inr ?_)
    simp only [ShmRegion.TableBelowHeap] at htable
    omega
  cases a with
  | write x bytes => exact (Set.disjoint_union_left.mpr ⟨hfields, hheap⟩).mono_left ha
  | _ => exact Set.empty_disjoint _

theorem sparesHeader_of_looks {a : Action} (ha : a.looks) : SparesHeader a := by
  cases a <;> first | exact ha.elim | exact Set.empty_disjoint _

/-- Nothing the bus does touches the header. -/
theorem permits_sparesHeader (hD : D.Sound) : D.Permits SparesHeader where
  frames _ ha := sparesHeader_of_frames ha
  places d i _ _ := by
    have htable : (D.writer d).TableBelowHeap := by
      cases d with
      | request => exact hD.hub_table
      | response => exact hD.worker_table
    exact (write_payload_confined _ _ _ _ _ _ _).mono fun _ ha => sparesHeader_of_fills htable ha
  reads_request _ := (read_payload_confined _ _).mono fun _ ha => sparesHeader_of_looks ha
  reads_response _ := (read_payload_confined _ _).mono fun _ ha => sparesHeader_of_looks ha

variable {discipline : Discipline bus Thread World Launch}

/-- What the threads still have to do leaves the header alone, whatever has been launched. -/
theorem Reaches.sparesHeader (h : D.Reaches discipline σ) :
    ∀ t, (σ.program t).Confined SparesHeader := by
  have hsound := h.sound
  obtain ⟨mem, names, segments, next, hsetup, hreach⟩ := h
  induction hreach with
  | refl => exact fun _ => trivial
  | tail _ hstep ih => exact hstep.confined (fun hx => (permits_sparesHeader hsound).launch hx) ih

/-- A step of the bus leaves the header alone. -/
theorem Reaches.header_step (h : D.Reaches discipline σ) (hstep : Step D.system discipline σ σ') :
    AgreeOn (span 0 SHM_HEADER_SIZE) σ.state.mem σ'.state.mem := by
  obtain ⟨t, a, k, c, r, w', hp, -, hx, rfl⟩ | ⟨e, t, p, w', -, -, hx, rfl⟩ := step_cases hstep
  · have hspares := h.sparesHeader t
    rw [hp] at hspares
    intro x hheader
    refine ((exec_changes hx).mem x ?_ fun i _ hword => ?_).symm
    · exact Set.disjoint_right.mp hspares.1 hheader
    · exact Set.disjoint_left.mp (header_disjoint_slot i) hheader
        ⟨hword.1, lt_of_lt_of_le hword.2 (Nat.add_le_add_left (by decide) _)⟩
  · obtain ⟨calls, replies, rfl⟩ := launch_eq hx
    exact fun _ _ => rfl

/-- For the bump allocator the traffic of the bus is a change of other bytes. -/
theorem bus_leaves_allocator_alone (h : D.Reaches discipline σ)
    (hstep : Step D.system discipline σ σ') (region : ShmRegion) :
    region.bump_allocator.environment σ.state.mem σ'.state.mem := fun x hx =>
  h.header_step hstep x ⟨Nat.zero_le x, hx.2.trans (by decide)⟩

/-- **The header stays as the hub has written it.** -/
theorem Reaches.header_kept (h : D.Reaches discipline σ) :
    ∃ mem, D.SetUp mem ∧ AgreeOn (span 0 SHM_HEADER_SIZE) mem σ.state.mem := by
  obtain ⟨mem, names, segments, next, hsetup, hreach⟩ := h
  refine ⟨mem, hsetup, ?_⟩
  induction hreach with
  | refl => exact fun _ _ => rfl
  | tail hτ hstep ih =>
      have hτ' : D.Reaches discipline _ := ⟨mem, names, segments, next, hsetup, hτ⟩
      exact ih.trans (hτ'.header_step hstep)

/-- **A worker that opens the region while the bus is at work**, whatever the surrounding programs
have launched, is accepted exactly if its mapping holds the layout, and gets the layout of the hub,
with the size of the heap as far as the header holds it; the allocation head is still 0, and no step
changes a byte of the header. -/
theorem late_opener_agrees (h : D.Reaches discipline σ) (raw : ShmRegion) :
    (raw.validate_control σ.state.mem).toOption =
      (if D.hub_region.heap_offset + D.hub_region.heap_size % 2 ^ 32 ≤ raw.len then
        some { raw with
          num_slots := D.num_slots, heap_offset := D.hub_region.heap_offset, heap_size :=
            D.hub_region.heap_size % 2 ^ 32 }
      else none) ∧
      alloc_head σ.state.mem = 0 ∧
      ∀ σ', Step D.system discipline σ σ' →
        AgreeOn (span 0 SHM_HEADER_SIZE) σ.state.mem σ'.state.mem := by
  obtain ⟨mem, hsetup, hkept⟩ := h.header_kept
  obtain ⟨raw', old, hinit⟩ := hsetup.created
  obtain ⟨hmagic, hversion, hslots, hoffset, hsize⟩ := init_control_header hinit
  have hfits := hsetup.offset_fits
  have htable := init_control_table hinit
  simp only [ShmRegion.TableBelowHeap, SHM_HEADER_SIZE, SLOT_META_SIZE] at htable
  rw [Nat.mod_eq_of_lt (by omega)] at hslots hoffset
  have hfield : ∀ a, a + 4 ≤ SHM_HEADER_SIZE → load σ.state.mem a 4 = load mem a 4 := fun a ha =>
    (load_congr fun x hx =>
      hkept x ⟨Nat.zero_le x, lt_of_lt_of_le hx.2 (ha.trans (Nat.zero_add _).ge)⟩).symm
  rw [← hfield 0 (by decide)] at hmagic
  rw [← hfield 4 (by decide)] at hversion
  rw [← hfield 8 (by decide)] at hslots
  rw [← hfield 12 (by decide)] at hoffset
  rw [← hfield 16 (by decide)] at hsize
  refine ⟨?_, ?_, fun σ' hstep => h.header_step hstep⟩
  · split
    · rename_i hlen
      have haccepted : HeaderAccepted raw σ.state.mem :=
        ⟨hmagic, hversion, by rw [hoffset, hsize]; exact hlen⟩
      rw [ShmRegion.validate_control_of_accepted haccepted, hslots, hoffset, hsize]
      rfl
    · rename_i hlen
      have hrefused : ¬ HeaderAccepted raw σ.state.mem := fun haccepted => by
        have hend := haccepted.heap_end
        rw [hoffset, hsize] at hend
        exact hlen hend
      obtain ⟨e, he⟩ := ShmRegion.validate_control_of_not_accepted hrefused
      rw [he]
      rfl
  · obtain ⟨-, hbytes⟩ := init_control_bytes hinit
    have hhead : load σ.state.mem 20 4 = 0 := by
      rw [hfield 20 (by decide), hbytes, load_write_same]
      rfl
    rw [alloc_head, hhead]
    rfl

/-- A worker opens the region while a request is being written. -/
theorem late_opener_agrees_small : ∃ σ :
    Configuration bus Thread World, slot_status σ.state.mem 0 = SLOT_WRITING ∧
    (small_mapping.validate_control σ.state.mem).toOption = some small_region := by
  have hrun : (small_total_bus.system.play (.launching Admitted)
      ([.launch (.dispatch (small_call "a" [7]))] ++ small_steps (.dispatch 0) 5)
      (Start small_start)).map
      (fun σ => slot_status σ.state.mem 0) = some SLOT_WRITING := by decide +kernel
  obtain ⟨σ, hplay, hstatus⟩ := Option.map_eq_some_iff.mp hrun
  have hσ : small_total_bus.Reaches (.launching Admitted) σ := small_bus_reaches hplay
  exact ⟨σ, hstatus, (late_opener_agrees hσ small_mapping).1.trans (if_pos (by decide))⟩

end Deployment

end SlotBus
