import SlotBus.Geometry
import SlotBus.Solo

/-!
# Where a body stays inline

`inline_body_capacity` predicts from the arenas of slot 0 which bodies are placed in the heap.
Placement is arithmetic on the geometry of the handle, so the prediction is right for every slot and
whatever the region contains.

* `HasRoom` — a body has room behind its metadata; `hasRoom_iff` says up to which length;
* `write_body_inline_eq`, `write_body_overflow_eq` — the two programs that `write_body` comes down
  to;
* `StaysInline`, `TakesOverflow` — what a writer that takes the one branch or the other does;
* `inline_boundary_exact` — **the boundary, for requests and for responses.**
-/

namespace SlotBus

open ByteMemory AtomicProgram AtomicProgram.Program

/-- Largest body that fits inline alongside a `meta_len`-byte metadata blob, for either direction of
a slot. -/
def ShmRegion.inline_body_capacity (region : ShmRegion) (meta_len : ℕ) : ℕ :=
  let arenas := region.slot_arenas 0
  min arenas.1.2 arenas.2.2 - align8 meta_len

/-! ### The halves of an arena -/

theorem dvd_align8 (n : ℕ) : 8 ∣ align8 n := Nat.dvd_mul_left 8 _

/-- Metadata that fits into a half of whole words still fits when it is rounded up. -/
theorem align8_le {n size : ℕ} (h : 8 ∣ size) (hn : n ≤ size) : align8 n ≤ size := by
  obtain ⟨k, rfl⟩ := h
  unfold align8
  omega

namespace SlotHalf

variable (H : SlotHalf)

/-- The half of an arena that a request has. -/
def request_half : ℕ := arena_size H.region.num_slots H.region.heap_size / 2 / 8 * 8

theorem base_dvd : 8 ∣ H.base := (slot_arenas_aligned H.direction H.region H.slot).1

theorem capacity_dvd : 8 ∣ H.capacity := (slot_arenas_aligned H.direction H.region H.slot).2

/-- The request half is never the larger one. -/
theorem request_half_le :
    H.request_half ≤ arena_size H.region.num_slots H.region.heap_size - H.request_half := by
  unfold request_half
  omega

/-- The predictor, which looks at slot 0, speaks of the request half of every slot. -/
theorem inline_body_capacity_eq (meta_len : ℕ) :
    H.region.inline_body_capacity meta_len = H.request_half - align8 meta_len := by
  show min H.request_half (arena_size H.region.num_slots H.region.heap_size - H.request_half) -
      align8 meta_len = _
  rw [Nat.min_eq_left H.request_half_le]

theorem capacity_request (h : H.direction = .request) : H.capacity = H.request_half := by
  unfold capacity
  rw [h]
  rfl

theorem request_half_le_capacity : H.request_half ≤ H.capacity := by
  have hle := H.request_half_le
  unfold capacity
  cases H.direction with
  | request => exact le_rfl
  | response => exact hle

/-- Where an inline body starts. -/
def inline_start (meta_len : ℕ) : ℕ := H.base + align8 meta_len

theorem inline_start_dvd (meta_len : ℕ) : 8 ∣ H.inline_start meta_len :=
  Nat.dvd_add H.base_dvd (dvd_align8 meta_len)

/-- A body has room behind the metadata. -/
def HasRoom (meta_len body_len : ℕ) : Prop :=
  H.inline_start meta_len + body_len ≤ H.base + H.capacity

instance (meta_len body_len : ℕ) : Decidable (H.HasRoom meta_len body_len) :=
  inferInstanceAs (Decidable (_ ≤ _))

variable {H} {meta_len body_len : ℕ}

theorem hasRoom_iff (hmeta : meta_len ≤ H.capacity) :
    H.HasRoom meta_len body_len ↔ body_len ≤ H.capacity - align8 meta_len := by
  have halign := align8_le H.capacity_dvd hmeta
  unfold HasRoom inline_start
  omega

/-- **The predictor is exact for requests.** -/
theorem request_hasRoom_iff (hdirection : H.direction = .request) (hmeta : meta_len ≤ H.capacity) :
    H.HasRoom meta_len body_len ↔ body_len ≤ H.region.inline_body_capacity meta_len := by
  rw [hasRoom_iff hmeta, inline_body_capacity_eq, capacity_request H hdirection]

/-- For responses it is on the safe side. -/
theorem hasRoom_of_le (hmeta : meta_len ≤ H.capacity)
    (h : body_len ≤ H.region.inline_body_capacity meta_len) : H.HasRoom meta_len body_len := by
  rw [inline_body_capacity_eq] at h
  have hle := H.request_half_le_capacity
  rw [hasRoom_iff hmeta]
  omega

/-- Room in the half is room in the heap. -/
theorem HasRoom.heap_le (hslot : H.slot < H.region.num_slots) (h : H.HasRoom meta_len body_len) :
    H.inline_start meta_len + body_len ≤ H.region.heap_size :=
  le_trans h (half_fits hslot)

/-- What the placement computes, in a heap whose offsets fit into the record. -/
theorem arena_body_offset_of_hasRoom (hslot : H.slot < H.region.num_slots)
    (hheap : H.region.heap_size < 2 ^ 32) (h : H.HasRoom meta_len body_len) :
    arena_body_offset H.base H.capacity meta_len body_len = some (H.inline_start meta_len) := by
  have hlt : H.inline_start meta_len < 2 ^ 32 := by
    have := h.heap_le hslot
    omega
  calc arena_body_offset H.base H.capacity meta_len body_len
      = some (H.inline_start meta_len % 2 ^ 32) := if_pos h
    _ = some (H.inline_start meta_len) := by rw [Nat.mod_eq_of_lt hlt]

theorem arena_body_offset_of_not_hasRoom (h : ¬ H.HasRoom meta_len body_len) :
    arena_body_offset H.base H.capacity meta_len body_len = none :=
  if_neg h

/-! ### The two placements as programs -/

variable {meta_bytes body : List UInt8}

/-- The check in front of the write of an inline body never fails. -/
theorem heap_write_of_hasRoom (hslot : H.slot < H.region.num_slots)
    (h : H.HasRoom meta_len body.length) :
    H.region.heap_write_checked (H.inline_start meta_len) body =
      liftM (write_bytes (H.region.heap_offset + H.inline_start meta_len) body) :=
  heap_write_checked_of_fits (h.heap_le hslot)

/-- A body that has room is placed behind the metadata. -/
theorem write_body_inline_eq (hslot : H.slot < H.region.num_slots)
    (hheap : H.region.heap_size < 2 ^ 32) (hbody : body ≠ []) (h : H.HasRoom meta_len body.length) :
    write_body H.direction H.target H.region H.slot meta_len body H.config =
      (do
        write_bytes (H.region.heap_offset + H.inline_start meta_len) body
        write_body_fields H.direction H.slot (H.inline_start meta_len) body.length OVERFLOW_INLINE
        pure none) := by
  have hoffset : arena_body_offset (H.direction.half (H.region.slot_arenas H.slot)).1
      (H.direction.half (H.region.slot_arenas H.slot)).2 meta_len body.length =
        some (H.inline_start meta_len) :=
    arena_body_offset_of_hasRoom hslot hheap h
  unfold write_body
  simp only [if_neg hbody, hoffset]
  rw [heap_write_of_hasRoom hslot h]

/-- A body that has no room goes to an overflow region. -/
theorem write_body_overflow_eq (hbody : body ≠ []) (h : ¬ H.HasRoom meta_len body.length) :
    write_body H.direction H.target H.region H.slot meta_len body H.config =
      (do
        let (ovf, marker) ← ShmRegion.create_overflow_fresh H.target H.name body
        write_body_fields H.direction H.slot 0 body.length marker
        pure (some ovf)) := by
  have hoffset : arena_body_offset (H.direction.half (H.region.slot_arenas H.slot)).1
      (H.direction.half (H.region.slot_arenas H.slot)).2 meta_len body.length = none :=
    arena_body_offset_of_not_hasRoom h
  unfold write_body
  simp only [if_neg hbody, hoffset]
  rfl

/-! ### Runs of the writers -/

variable {t : Thread} {w w' : World} {β : Type}

/-- The mapping after an inline payload has been placed. -/
abbrev placed_inline (H : SlotHalf) (meta_bytes body : List UInt8) (m : Memory) : Memory :=
  H.place meta_bytes body (.inline (H.inline_start meta_bytes.length)) m

theorem placed_inline_recorded (h : H.Sound) (hmeta : meta_bytes.length ≤ H.capacity)
    (hroom : H.HasRoom meta_bytes.length body.length) (m : Memory) :
    H.Recorded meta_bytes body (.inline (H.inline_start meta_bytes.length))
      (H.placed_inline meta_bytes body m) := by
  apply place_recorded h hmeta
  show H.inline_start meta_bytes.length = H.base + align8 meta_bytes.length ∧ _
  exact ⟨rfl, hroom⟩

/-- An inline payload is always the next step of a run. -/
theorem runs_write_payload_inline (hslot : H.slot < H.region.num_slots)
    (hheap : H.region.heap_size < 2 ^ 32) (hmeta : meta_bytes.length ≤ H.capacity)
    (hbody : body ≠ []) (h : H.HasRoom meta_bytes.length body.length)
    (rest : Option OverflowRegion → Fallible β) (t : Thread) (w : World) :
    ∃ log, ∀ result w', Runs (machine H.target) t
        (write_payload H.direction H.target H.region H.slot meta_bytes body H.config >>=
          rest).run w result w' ↔
      Runs (machine H.target) t (rest none).run
        { w with mem := H.placed_inline meta_bytes body w.mem, log := log } result w' := by
  rw [write_payload_of_fits hslot hmeta, write_body_inline_eq hslot hheap hbody h]
  unfold write_body_fields
  simp only [bind_assoc, pure_bind, runs_write]
  exact ⟨_, fun _ _ => Iff.rfl⟩

/-- A payload without room gets a region and a marker that says so. -/
theorem write_payload_overflow_runs (hslot : H.slot < H.region.num_slots)
    (hmeta : meta_bytes.length ≤ H.capacity) (hbody : body ≠ [])
    (h : ¬ H.HasRoom meta_bytes.length body.length) {o : Option OverflowRegion}
    (hrun : Runs (machine H.target) t
          (write_payload H.direction H.target H.region H.slot meta_bytes body H.config).run w
          (.ok o) w') :
    read w'.mem (H.field 16) 1 ≠ [OVERFLOW_INLINE] := by
  rw [write_payload_of_fits hslot hmeta, write_body_overflow_eq hbody h, runs_write,
    runs_write, runs_write] at hrun
  obtain ⟨⟨ovf, marker⟩, u, hcreate, hfields⟩ := runs_bind_ok hrun
  unfold write_body_fields at hfields
  simp only [bind_assoc] at hfields
  rw [runs_write, runs_write, runs_write] at hfields
  obtain ⟨-, rfl⟩ := Runs.done_iff.mp hfields
  rcases create_overflow_runs hcreate with ⟨-, e, he⟩ | ⟨v, r, g, -, hg, -, heq, -, -⟩
  · cases he
  · obtain ⟨-, rfl⟩ := Prod.mk.inj (Except.ok.inj heq)
    intro hread
    have hmarker := (read_write_same _ (H.field 16) [UInt8.ofNat (g + 1)]).symm.trans hread
    have hgen := Lease.overflow_generation_marker hg
    rw [(List.cons.inj hmarker).1] at hgen
    cases hgen

/-! ### The boundary -/

/-- The status word of a slot lies in front of its pointer fields. -/
theorem status_write_recorded {P : Placement} {m : Memory} (h : H.InTable) (v : ℕ)
    (hr : H.Recorded meta_bytes body P m) :
    H.Recorded meta_bytes body P (write m (slot_address H.slot) (encodeLE 4 v)) := by
  refine hr.congr fun x hx => (write_outside ?_).symm
  intro hin
  rw [encodeLE_length] at hin
  exact Set.disjoint_left.mp (footprint_disjoint_status h h.slot_lt) hx hin

theorem status_write_marker (v : ℕ) (m : Memory) :
    read (write m (slot_address H.slot) (encodeLE 4 v)) (H.field 16) 1 = read m (H.field 16) 1 := by
  apply read_write_disjoint
  rw [encodeLE_length]
  unfold field
  cases H.direction <;> simp only [Direction.fields] <;> omega

/-- A writer of the half places the body inline, whatever the region holds, and does nothing
else. -/
structure StaysInline (H : SlotHalf) (meta_bytes body : List UInt8)
    (p : Program bus (Except SlotBusError (Option OverflowRegion))) : Prop where
  aligned : 8 ∣ H.inline_start meta_bytes.length
  inside : H.inline_start meta_bytes.length + body.length ≤ H.base + H.capacity
  accepted : H.region.heap_write_checked (H.inline_start meta_bytes.length) body =
    liftM (write_bytes (H.region.heap_offset + H.inline_start meta_bytes.length) body)
  run : ∀ (t : Thread) (w : World), ∃ w',
    H.Recorded meta_bytes body (.inline (H.inline_start meta_bytes.length)) w'.mem ∧
      ∀ result u, Runs (machine H.target) t p w result u ↔ result = .ok none ∧ u = w'

/-- How a writer of a request goes on when the creation of a region has come back: it records the
marker and publishes the slot, or it releases the slot and passes the error on. -/
def publish_overflow (i body_len : ℕ) :
    Except SlotBusError (OverflowRegion × UInt8) →
      Program bus (Except SlotBusError (Option OverflowRegion))
  | .ok (ovf, marker) => do
      let _ ← (write_body_fields .request i 0 body_len marker).run
      store i SLOT_READY
      pure (.ok (some ovf))
  | .error e => do
      store i SLOT_FREE
      pure (.error e)

/-- A writer of the half puts the body into an overflow region, whatever the region holds: it
records header and metadata, and its runs from there on are those of `create_overflow_fresh` on the
body, followed by the marker and READY, or by FREE and the error. -/
def TakesOverflow (H : SlotHalf) (req_id : String) (method : UInt8) (meta_bytes body : List UInt8)
    (p : Program bus (Except SlotBusError (Option OverflowRegion))) : Prop :=
  ∀ (t : Thread) (w : World), ∃ log, ∀ result w', Runs (machine H.target) t p w result w' ↔
    ∃ created u,
      Runs (machine H.target) t (ShmRegion.create_overflow_fresh H.target H.name body).run
        { w with
          mem := H.place_meta meta_bytes (place_header H.slot req_id method w.mem), log := log }
        created u ∧
      Runs (machine H.target) t (publish_overflow H.slot body.length created) u result w'

section Writers

variable {target : Target} {region : ShmRegion} {names : SlotBusConfig} {i : ℕ}

theorem write_request_inline (h : SlotHalf.Sound ⟨.request, target, region, names, i⟩)
    (hmeta : meta_bytes.length ≤ SlotHalf.capacity ⟨.request, target, region, names, i⟩)
    (hbody : body ≠ [])
    (hroom : SlotHalf.HasRoom ⟨.request, target, region, names, i⟩ meta_bytes.length body.length)
    (req_id : String) (method : UInt8) :
    StaysInline ⟨.request, target, region, names, i⟩ meta_bytes body
      (write_request target region i req_id method meta_bytes body names) where
  aligned := inline_start_dvd _ _
  inside := hroom
  accepted := heap_write_of_hasRoom h.slot_lt hroom
  run t w := by
    have hinner : ∃ w', SlotHalf.Recorded ⟨.request, target, region, names, i⟩ meta_bytes body
        (.inline (inline_start ⟨.request, target, region, names, i⟩ meta_bytes.length)) w'.mem ∧
          ∀ result u, Runs (machine target) t
              (write_request_inner target region i req_id method meta_bytes body names).run
                w result u ↔
            result = .ok none ∧ u = w' := by
      rw [write_request_inner_eq h.slot_lt]
      simp only [runs_write]
      obtain ⟨log, hpayload⟩ :=
        runs_write_payload_inline (β := Option OverflowRegion) h.slot_lt h.heap_lt hmeta hbody hroom
        (fun o => do
          store i SLOT_READY
          pure o) t _
      refine ⟨_, ?_, fun result u => (hpayload result u).trans (runs_store.trans Runs.done_iff)⟩
      exact status_write_recorded h.toInTable _ (placed_inline_recorded h hmeta hroom _)
    obtain ⟨w', hrecorded, hrun⟩ := hinner
    refine ⟨w', hrecorded, fun result u => ?_⟩
    constructor
    · intro hwrite
      obtain ⟨inner, v, hfirst, hrest⟩ := Runs.bind_iff.mp hwrite
      obtain ⟨rfl, rfl⟩ := (hrun inner v).mp hfirst
      exact Runs.done_iff.mp hrest
    · rintro ⟨rfl, rfl⟩
      exact Runs.bind_iff.mpr ⟨_, _, (hrun _ _).mpr ⟨rfl, rfl⟩, .done _ _⟩

theorem write_response_inline (h : SlotHalf.Sound ⟨.response, target, region, names, i⟩)
    (hmeta : meta_bytes.length ≤ SlotHalf.capacity ⟨.response, target, region, names, i⟩)
    (hbody : body ≠ [])
    (hroom : SlotHalf.HasRoom ⟨.response, target, region, names, i⟩ meta_bytes.length body.length)
    (status : UInt16) :
    StaysInline ⟨.response, target, region, names, i⟩ meta_bytes body
      (write_response target region i status meta_bytes body names).run where
  aligned := inline_start_dvd _ _
  inside := hroom
  accepted := heap_write_of_hasRoom h.slot_lt hroom
  run t w := by
    unfold write_response ensure
    rw [if_pos h.slot_lt, pure_bind]
    simp only [runs_write]
    obtain ⟨log, hpayload⟩ :=
      runs_write_payload_inline (β := Option OverflowRegion) h.slot_lt h.heap_lt hmeta hbody hroom
      (fun o => do
        store i SLOT_DONE
        pure o) t _
    refine ⟨_, ?_, fun result u => (hpayload result u).trans (runs_store.trans Runs.done_iff)⟩
    exact status_write_recorded h.toInTable _ (placed_inline_recorded h hmeta hroom _)

/-- The cleanup of `write_request`, behind a program that may fail. -/
def release_on_error (i : ℕ) (p : Fallible (Option OverflowRegion)) :
    Program bus (Except SlotBusError (Option OverflowRegion)) := do
  match ← p.run with
  | .ok overflow => pure (.ok overflow)
  | .error e =>
      store i SLOT_FREE
      pure (.error e)

theorem runs_release_write {x : ℕ} {bytes : List UInt8}
    {rest : Unit → Fallible (Option OverflowRegion)}
    {result : Except SlotBusError (Option OverflowRegion)} :
    Runs (machine target) t
      (release_on_error i ((liftM (write_bytes x bytes) : Fallible Unit) >>= rest))
        w result w' ↔
      Runs (machine target) t (release_on_error i (rest ()))
        { w with mem := write w.mem x bytes, log := ⟨t, .write x bytes, ()⟩ :: w.log } result w' :=
  runs_of_effect (a := .write x bytes) (k := fun r => release_on_error i (rest r))
    (u := { w with mem := write w.mem x bytes }) fun _ => rfl

/-- Behind the creation of a region the rest of `write_request` is `publish_overflow`. -/
theorem release_create_eq (create : Fallible (OverflowRegion × UInt8)) (len : ℕ) :
    release_on_error i (do
        let x ← create
        write_body_fields .request i 0 len x.2
        store i SLOT_READY
        pure (some x.1)) = create.run >>= publish_overflow i len := by
  unfold release_on_error
  rw [ExceptT.run_bind, bind_assoc]
  apply bind_congr
  intro created
  cases created with
  | error e => rfl
  | ok x => rfl

/-- A request that has no room takes the overflow branch. -/
theorem write_request_takes_overflow (hi : i < region.num_slots)
    (hmeta : meta_bytes.length ≤ SlotHalf.capacity ⟨.request, target, region, names, i⟩)
    (hbody : body ≠ [])
    (hroom : ¬ SlotHalf.HasRoom ⟨.request, target, region, names, i⟩ meta_bytes.length body.length)
    (req_id : String) (method : UInt8) :
    TakesOverflow ⟨.request, target, region, names, i⟩ req_id method meta_bytes body
      (write_request target region i req_id method meta_bytes body names) := by
  let H : SlotHalf := ⟨.request, target, region, names, i⟩
  intro t w
  have hwriter : write_request target region i req_id method meta_bytes body names =
      release_on_error i
        (write_request_inner target region i req_id method meta_bytes body names) := rfl
  have hpayload := @write_payload_of_fits H meta_bytes body hi hmeta
  rw [write_body_overflow_eq (H := H) hbody hroom] at hpayload
  rw [hwriter, write_request_inner_eq hi,
    show write_payload .request target region i meta_bytes body names = _ from
    hpayload]
  simp only [bind_assoc, pure_bind, runs_release_write]
  rw [release_create_eq]
  exact ⟨_, fun result w' => Runs.bind_iff⟩

/-- A request that has no room is not marked as inline. -/
theorem write_request_overflow_marker (hi : i < region.num_slots)
    (hmeta : meta_bytes.length ≤ SlotHalf.capacity ⟨.request, target, region, names, i⟩)
    (hbody : body ≠ [])
    (hroom : ¬ SlotHalf.HasRoom ⟨.request, target, region, names, i⟩ meta_bytes.length body.length)
    {req_id : String} {method : UInt8} {o : Option OverflowRegion}
    (h : Runs (machine target) t (write_request target region i req_id method meta_bytes body names)
      w (.ok o) w') :
    read w'.mem (SlotHalf.field ⟨.request, target, region, names, i⟩ 16) 1 ≠ [OVERFLOW_INLINE] := by
  obtain ⟨result, u, hinner, hrest⟩ := Runs.bind_iff.mp h
  cases result with
  | error e =>
      have hdone := runs_store.mp hrest
      cases (Runs.done_iff.mp hdone).1
  | ok o' =>
      obtain ⟨-, rfl⟩ := Runs.done_iff.mp hrest
      rw [write_request_inner_eq hi, runs_write, runs_write, runs_write] at hinner
      obtain ⟨o', v, hpayload, hstore⟩ := runs_bind_ok hinner
      have hdone := runs_store.mp hstore
      obtain ⟨-, rfl⟩ := Runs.done_iff.mp hdone
      have hmarker :=
        write_payload_overflow_runs (H := ⟨.request, target, region, names, i⟩) hi
        hmeta hbody hroom hpayload
      intro hread
      apply hmarker
      exact (status_write_marker (H := ⟨.request, target, region, names, i⟩) SLOT_READY
        v.mem).symm.trans hread

end Writers
end SlotHalf

open SlotHalf in
/-- **The inline boundary is exact**: for every slot of a region that has been laid out, and
whatever the region contains by now, a request stays inline exactly up to the predicted capacity and
takes the overflow branch beyond it, and a response stays inline at least up to the capacity. -/
theorem inline_boundary_exact {raw region : ShmRegion} {config : SlotBusConfig} {old mem : Memory}
    (hinit : raw.init_control config old = .ok (region, mem))
    (hheap : region.heap_size < 2 ^ 32) {i : ℕ} (hi : i < region.num_slots) (target : Target)
    (names : SlotBusConfig) {meta_bytes body : List UInt8} (hbody : body ≠ []) :
    let request : SlotHalf := ⟨.request, target, region, names, i⟩
    let response : SlotHalf := ⟨.response, target, region, names, i⟩
    (meta_bytes.length ≤ request.capacity → ∀ (req_id : String) (method : UInt8),
      (∀ (t : Thread) (w : World),
        (∃ o w', Runs (machine target) t
        (write_request target region i req_id method meta_bytes body names) w (.ok o) w' ∧
            read w'.mem (request.field 16) 1 = [OVERFLOW_INLINE]) ↔
          body.length ≤ region.inline_body_capacity meta_bytes.length) ∧
      (body.length ≤ region.inline_body_capacity meta_bytes.length →
        request.StaysInline meta_bytes body
          (write_request target region i req_id method meta_bytes body names)) ∧
      (region.inline_body_capacity meta_bytes.length < body.length →
        request.TakesOverflow req_id method meta_bytes body
          (write_request target region i req_id method meta_bytes body names))) ∧
    (meta_bytes.length ≤ response.capacity → ∀ status : UInt16,
      body.length ≤ region.inline_body_capacity meta_bytes.length →
        response.StaysInline meta_bytes body
          (write_response target region i status meta_bytes body names).run) := by
  intro request response
  have htable : request.InTable := ⟨init_control_table hinit, hi⟩
  have hrequest : request.Sound := ⟨htable, hheap⟩
  have hresponse : response.Sound := ⟨⟨htable.table, hi⟩, hheap⟩
  refine ⟨fun hmeta req_id method => ?_, fun hmeta status hle => ?_⟩
  · have hexact : request.HasRoom meta_bytes.length body.length ↔
        body.length ≤ region.inline_body_capacity meta_bytes.length := request_hasRoom_iff rfl hmeta
    have hinline := fun hroom => write_request_inline hrequest hmeta hbody hroom req_id method
    refine ⟨fun t w => ?_, fun hle => hinline (hexact.mpr hle), fun hlt => ?_⟩
    · constructor
      · intro ⟨o, w', hrun, hmarker⟩
        by_contra hle
        have hroom : ¬ request.HasRoom meta_bytes.length body.length := fun h => hle (hexact.mp h)
        exact write_request_overflow_marker hi hmeta hbody hroom hrun hmarker
      · intro hle
        obtain ⟨w', hrecorded, hruns⟩ := (hinline (hexact.mpr hle)).run t w
        exact ⟨none, w', (hruns _ _).mpr ⟨rfl, rfl⟩, hrecorded.marker⟩
    · have hroom : ¬ request.HasRoom meta_bytes.length body.length := fun h =>
        absurd (hexact.mp h) (Nat.not_le_of_lt hlt)
      exact write_request_takes_overflow hi hmeta hbody hroom req_id method
  · exact write_response_inline hresponse hmeta hbody
      (hasRoom_of_le (H := response) hmeta hle) status

/-- A write of `n` body bytes behind five bytes of metadata stays inline in the small region. -/
def small_write_stays_inline (n : ℕ) : Prop :=
  ∃ o w', Runs (machine .linux) (.dispatch 0)
      (write_request .linux small_region 0 "a" METHOD_GET [0, 0, 0, 0, 0] (List.replicate n 7)
        small_config) small_world
      (.ok o) w' ∧ read w'.mem (SlotHalf.field ⟨.request, .linux, small_region, small_config, 0⟩ 16)
        1 = [OVERFLOW_INLINE]

theorem inline_boundary_exact_small : small_write_stays_inline 24 ∧ ¬ small_write_stays_inline 25 ∧
    SlotHalf.TakesOverflow ⟨.request, .linux, small_region, small_config, 0⟩ "a" METHOD_GET
      [0, 0, 0, 0, 0] (List.replicate 25 7)
      (write_request .linux small_region 0 "a" METHOD_GET [0, 0, 0, 0, 0]
      (List.replicate 25 7) small_config) := by
  have hboundary := fun (body : List UInt8) (hbody : body ≠ []) =>
    (@inline_boundary_exact _ _ _ _ _ small_region_laid_out (by decide) 0
    (by decide) .linux small_config
      [0, 0, 0, 0, 0] body hbody).1 (by decide) "a" METHOD_GET
  have hexact := fun (body : List UInt8) (hbody : body ≠ []) =>
    (hboundary body hbody).1 (.dispatch 0) small_world
  refine ⟨?_, ?_, ?_⟩
  · exact (hexact (List.replicate 24 7) (by decide)).mpr (by decide)
  · intro h
    exact absurd ((hexact (List.replicate 25 7) (by decide)).mp h) (by decide)
  · exact (hboundary (List.replicate 25 7) (by decide)).2.2 (by decide)

end SlotBus
