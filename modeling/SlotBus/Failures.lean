import SlotBus.Solo
import SlotBus.Geometry

/-!
# What a failed operation leaves behind

The guards and the `?`s sit in the inner functions, the cleanup in their callers.  This file
compares the world after an error with the world before it.

* `out_of_range_clean_iff` — **when** an index beyond the slot table is a clean error: the cleanup
  store is outside the table as well;
* `store_in_an_arena` — the same store on the small bus, which overwrites the request arena of slot
  0;
* `failed_dispatch_iff` — **when** a dispatch that fails has no lasting effect;
* `unserializable_request_keeps_slot` — one that has: the slot stays WRITING.
-/

namespace SlotBus

open ByteMemory AtomicProgram AtomicProgram.Program

variable {target : Target} {t : Thread} {w w' : World}

/-! ### An index beyond the slot table -/

/-- The addresses of the control region an action reads or writes. -/
def Action.accesses : Action → Set ℕ
  | .load i => status_word i
  | .compare_exchange i _ _ => status_word i
  | .store i _ => status_word i
  | .write a bytes => span a bytes.length
  | .read a len => span a len
  | _ => ∅

/-- The addresses of the slot table. -/
def slot_table (region : ShmRegion) : Set ℕ :=
  span SHM_HEADER_SIZE (region.num_slots * SLOT_META_SIZE)

/-- An error that left the control region alone: its bytes are the same, and every access on the way
out was in the slot table and in the mapping. -/
structure CleanError {β : Type} (region : ShmRegion) (w : World) (result : Except SlotBusError β)
    (w' : World) : Prop where
  error : ∃ e, result = .error e
  bytes : AgreeOn (span 0 region.len) w.mem w'.mem
  accesses : ∃ new, w'.log = new ++ w.log ∧ ∀ e ∈ new,
    e.action.accesses ⊆ slot_table region ∩ span 0 region.len

/-- In every world the call returns, and whatever it returns is a clean error. -/
def FailsCleanly {β : Type} (target : Target) (region : ShmRegion)
    (p : Program bus (Except SlotBusError β)) :
    Prop :=
  ∀ t w, (∃ result w', Runs (machine target) t p w result w') ∧
    ∀ result w', Runs (machine target) t p w result w' → CleanError region w result w'

/-- The status word behind the table is not in the table. -/
theorem status_word_not_subset {region : ShmRegion} {i : ℕ} (hi : region.num_slots ≤ i) :
    ¬ status_word i ⊆ slot_table region := by
  intro h
  have hmem := (h (mem_span.mpr ⟨le_rfl, Nat.lt_add_of_pos_right (by decide)⟩)).2
  have hle := Nat.mul_le_mul_right SLOT_META_SIZE hi
  simp only [slot_address] at hmem
  omega

/-- A call that stores to a status word behind the table does not fail cleanly. -/
theorem not_failsCleanly_of_store {β : Type} {region : ShmRegion}
    {p : Program bus (Except SlotBusError β)} {i v : ℕ} (hi : region.num_slots ≤ i)
    (h : ∀ t w, ∃ result w', Runs (machine target) t p w result w' ∧
      (⟨t, .store i v, ()⟩ : Entry) ∈ w'.log) :
    ¬ FailsCleanly target region p := by
  intro hclean
  -- the run starts with an empty log, so every entry at its end is one of its own
  let w : World := .start (fun _ => 0) (fun _ => none) (fun _ => ⟨0, fun _ => 0, false⟩) 0
  obtain ⟨result, w', hrun, hstore⟩ := h .watcher w
  obtain ⟨new, hlog, haccess⟩ := ((hclean .watcher w).2 result w' hrun).accesses
  rw [hlog] at hstore
  rcases List.mem_append.mp hstore with hnew | hold
  · exact status_word_not_subset hi ((haccess _ hnew).trans Set.inter_subset_left)
  · exact absurd hold List.not_mem_nil

/-- The guard of `write_request` fails, and the caller stores to the slot it never had. -/
theorem write_request_out_of_range {region : ShmRegion} {i : ℕ}
    (hi : region.num_slots ≤ i) (target : Target) (req_id : String) (method : UInt8)
    (meta_bytes body : List UInt8) (config : SlotBusConfig) :
    write_request target region i req_id method meta_bytes body config =
      (store i SLOT_FREE >>= fun _ => pure (.error
        (.InvalidRegion s!"write_request slot_index {i} >= num_slots {region.num_slots}"))) := by
  have hinner : (write_request_inner target region i req_id method meta_bytes body config).run =
      pure (.error
        (.InvalidRegion s!"write_request slot_index {i} >= num_slots {region.num_slots}")) := by
    rw [write_request_inner, ensure, if_neg (by omega)]
    rfl
  rw [write_request, hinner]
  rfl

namespace Deployment

variable (D : Deployment)

/-- `send_response` gives up before it touches anything if the metadata cannot be serialized. -/
theorem send_response_unserializable {i : ℕ} {content_type : String}
    {headers : List (String × String)} {e : String}
    (he : D.response_codec.to_allocvec ⟨content_type, headers⟩ = .error e) (l : ℕ) (status : UInt16)
    (body : List UInt8) :
    (D.send_response l i status body content_type headers).run =
      pure (.error (.Serialization e)) := by
  rw [send_response, he]
  rfl

/-- The guard of `write_response` fails, and `send_response` stores to the slot. -/
theorem send_response_out_of_range {i : ℕ} (hi : D.worker_region.num_slots ≤ i)
    {content_type : String} {headers : List (String × String)} {meta_bytes : List UInt8}
    (hmeta : D.response_codec.to_allocvec ⟨content_type, headers⟩ = .ok meta_bytes)
    (l : ℕ) (status : UInt16) (body : List UInt8) :
    (D.send_response l i status body content_type headers).run =
      (overflow_remove (.worker l) i >>= fun _ => store i SLOT_FREE >>= fun _ => pure (.error
        (.InvalidRegion
          s!"write_response slot_index {i} >= num_slots {D.worker_region.num_slots}"))) := by
  have hwrite : write_response D.target D.worker_region i status meta_bytes body D.config =
      throw (.InvalidRegion
        s!"write_response slot_index {i} >= num_slots {D.worker_region.num_slots}") := by
    rw [write_response, ensure, if_neg (by omega)]
    rfl
  rw [send_response, hmeta]
  simp only [Except.mapError, from_except, pure_bind, hwrite]
  rfl

end Deployment

/-- **When an index beyond the slot table is a clean error.**  For `write_request` it never is; for
`send_response` it is when the metadata cannot be serialized, since only then the cleanup is not
reached.  From index `2 ^ 57` on the address of the cleanup store wraps in the source, to the status
of another slot; that store is not clean either. -/
theorem out_of_range_clean_iff (D : Deployment) {i : ℕ} (hhub : D.hub_region.num_slots ≤ i)
    (hworker : D.worker_region.num_slots ≤ i) :
    (∀ req_id method meta_bytes body, ¬ FailsCleanly D.target D.hub_region
      (write_request D.target D.hub_region i req_id method meta_bytes body D.config)) ∧
    ∀ l status body content_type headers,
      FailsCleanly D.target D.worker_region
        (D.send_response l i status body content_type headers).run ↔
        ∃ e, D.response_codec.to_allocvec ⟨content_type, headers⟩ = .error e := by
  constructor
  · intro req_id method meta_bytes body
    refine not_failsCleanly_of_store hhub (v := SLOT_FREE) fun t w => ?_
    rw [write_request_out_of_range hhub]
    exact ⟨_, _, runs_store.mpr (.done _ _), List.mem_cons_self⟩
  · intro l status body content_type headers
    cases hmeta : D.response_codec.to_allocvec ⟨content_type, headers⟩ with
    | error e =>
        refine iff_of_true (fun t w => ?_) ⟨e, rfl⟩
        rw [D.send_response_unserializable hmeta]
        refine ⟨⟨_, _, .done _ _⟩, fun result w' hrun => ?_⟩
        obtain ⟨rfl, rfl⟩ := Runs.done_iff.mp hrun
        exact ⟨⟨_, rfl⟩, .refl _ _, [], rfl, fun e he => absurd he List.not_mem_nil⟩
    | ok meta_bytes =>
        refine iff_of_false ?_ (fun ⟨e, he⟩ => nomatch he)
        refine not_failsCleanly_of_store hworker (v := SLOT_FREE) fun t w => ?_
        rw [D.send_response_out_of_range hworker hmeta]
        exact ⟨_, _, (runs_of_effect fun _ => rfl).mpr (runs_store.mpr (.done _ _)),
          List.mem_cons_self⟩

/-- A bus whose serializers know one request and one response. -/
def narrow_bus : Deployment :=
  small_bus (small_codec small_request []) (small_codec small_response [])

theorem out_of_range_clean_iff_small :
    ¬ FailsCleanly .linux small_region
      (write_request .linux small_region 1 "a" METHOD_GET [] [] small_config) ∧
      FailsCleanly .linux small_region (narrow_bus.send_response 0 1 200 [] "text" []).run :=
  have h := out_of_range_clean_iff narrow_bus (i := 1) le_rfl le_rfl
  ⟨h.1 "a" METHOD_GET [] [], (h.2 0 200 [] "text" []).mpr ⟨"unsupported", by decide⟩⟩

/-- **The cleanup store lands in an arena.**  Behind the table of the small bus lies the request
arena of slot 0. -/
theorem store_in_an_arena : ∃ w e w',
    Runs (machine .linux) (.dispatch 0)
      (write_request .linux small_region 1 "a" METHOD_GET [] [] small_config) w
        (.error e) w' ∧
      192 ∈ arena small_region .request 0 ∧ w.mem 192 = 1 ∧ w'.mem 192 = 0 := by
  let w : World := .start (fun _ => 1) (fun _ => none) (fun _ => ⟨0, fun _ => 0, false⟩) 0
  rw [write_request_out_of_range (by decide)]
  exact ⟨w, _, _, runs_store.mpr (.done _ _), mem_span.mpr (by decide), rfl, by decide +kernel⟩

/-! ### The mapping after a failed request -/

section Released

variable {region : ShmRegion} {i : ℕ}

/-- A write inside the record of a slot is not seen outside it. -/
theorem agreeOn_of_record_write {x : ℕ} {bytes : List UInt8}
    (h : span x bytes.length ⊆ span (slot_address i) SLOT_META_SIZE) (m : Memory) :
    AgreeOn (span (slot_address i) SLOT_META_SIZE)ᶜ m (write m x bytes) :=
  AgreeOn.write (disjoint_compl_left.mono_right h)

theorem agreeOn_set_status (i v : ℕ) (m : Memory) :
    AgreeOn (span (slot_address i) SLOT_META_SIZE)ᶜ m (write m (slot_address i) (encodeLE 4 v)) :=
  agreeOn_of_record_write (span_subset le_rfl (by simp [SLOT_META_SIZE])) m

theorem agreeOn_place_header (i : ℕ) (req_id : String) (method : UInt8) (m : Memory) :
    AgreeOn (span (slot_address i) SLOT_META_SIZE)ᶜ m (place_header i req_id method m) := by
  have hid : (req_id.toUTF8.toList.take 36).length ≤ 36 := List.length_take_le _ _
  refine ((agreeOn_of_record_write ?_ m).trans (agreeOn_of_record_write ?_ _)).trans
    (agreeOn_of_record_write ?_ _)
  · exact span_subset (by omega) (by simp [SLOT_META_SIZE])
  · exact span_subset (by omega) (by simp only [SLOT_META_SIZE]; omega)
  · exact span_subset (by omega) (by simp [SLOT_META_SIZE])

/-- The two fields of the metadata are in the record; only the metadata itself is seen outside
it. -/
theorem agreeOn_place_meta (H : SlotHalf) (meta_bytes : List UInt8) (m : Memory) :
    AgreeOn (span (slot_address H.slot) SLOT_META_SIZE)ᶜ
      (write m (H.region.heap_offset + H.base % 2 ^ 32) meta_bytes)
      (H.place_meta meta_bytes m) := by
  have hfields : H.direction.fields ≤ 68 := by cases H.direction <;> decide
  refine (agreeOn_of_record_write ?_ _).trans (agreeOn_of_record_write ?_ _)
  all_goals
    rw [encodeLE_length, SlotHalf.field]
    exact span_subset (by omega) (by simp only [SLOT_META_SIZE]; omega)

/-- What a failed request leaves in the mapping: the slot is free, and outside its record nothing
but `bytes` has been written, where the 32-bit offset of its arena points. -/
structure LeftBehind (H : SlotHalf) (bytes : List UInt8) (mem mem' : Memory) : Prop where
  free : slot_status mem' H.slot = SLOT_FREE
  outside : AgreeOn (span (slot_address H.slot) SLOT_META_SIZE)ᶜ
    (write mem (H.region.heap_offset + H.base % 2 ^ 32) bytes) mem'

theorem LeftBehind.of_place_header {H : SlotHalf} (req_id : String)
    (method : UInt8) (mem : Memory) :
    LeftBehind H [] mem (write (place_header H.slot req_id method
      (write mem (slot_address H.slot) (encodeLE 4 SLOT_WRITING))) (slot_address H.slot)
      (encodeLE 4 SLOT_FREE)) where
  free := load_write_same
  outside := by
    rw [write_nil]
    exact ((agreeOn_set_status _ _ _).trans (agreeOn_place_header _ _ _ _)).trans
      (agreeOn_set_status _ _ _)

theorem LeftBehind.of_place_meta {H : SlotHalf} (req_id : String) (method : UInt8)
    (meta_bytes : List UInt8) (mem : Memory) :
    LeftBehind H meta_bytes mem (write (H.place_meta meta_bytes (place_header H.slot req_id method
      (write mem (slot_address H.slot) (encodeLE 4 SLOT_WRITING)))) (slot_address H.slot)
      (encodeLE 4 SLOT_FREE)) where
  free := load_write_same
  outside :=
    ((((agreeOn_set_status _ _ _).trans (agreeOn_place_header _ _ _ _)).write_both _ _).trans
      (agreeOn_place_meta H _ _)).trans (agreeOn_set_status _ _ _)

end Released

/-! ### A dispatch that fails -/

/-- Nothing that lasts: the statuses, the pending map, and the records and arenas of the slots that
were not reserved are as before, and no named region has been added. -/
structure NoLastingEffect (region : ShmRegion) (w w' : World) : Prop where
  statuses : ∀ j < region.num_slots, slot_status w'.mem j = slot_status w.mem j
  pending : w'.pending = w.pending
  names : ∀ n s, w'.names n = some s → w.names n = some s
  records : ∀ j < region.num_slots, first_free region w.mem ≠ some j →
    AgreeOn (span (slot_address j) SLOT_META_SIZE) w.mem w'.mem
  arenas : ∀ j < region.num_slots, first_free region w.mem ≠ some j →
    ∀ d, AgreeOn (arena region d j) w.mem w'.mem

/-- The bytes a failed request has written outside its record are where they belong, or were there
before. -/
def Harmless (H : SlotHalf) (bytes : List UInt8) (mem : Memory) : Prop :=
  H.base < 2 ^ 32 ∨ read mem (H.region.heap_offset + H.base % 2 ^ 32) bytes.length = bytes

section Effects

theorem record_subset_compl {i j : ℕ} (h : j ≠ i) :
    span (slot_address j) SLOT_META_SIZE ⊆ (span (slot_address i) SLOT_META_SIZE)ᶜ :=
  Set.subset_compl_iff_disjoint_right.mpr (slot_disjoint h)

variable {H : SlotHalf} {bytes : List UInt8}

theorem heap_subset_compl (hH : H.InTable) :
    heap H.region ⊆ (span (slot_address H.slot) SLOT_META_SIZE)ᶜ :=
  Set.subset_compl_iff_disjoint_left.mpr
    (disjoint_span (.inl (slot_address_heap hH.table hH.slot_lt)))

/-- Wherever the bytes went, the records of the other slots are the same. -/
theorem LeftBehind.records {mem mem' : Memory} (hH : H.InTable) (h : LeftBehind H bytes mem mem')
    (hfits : bytes.length ≤ H.capacity) {j : ℕ} (hj : j < H.region.num_slots) (hne : j ≠ H.slot) :
    AgreeOn (span (slot_address j) SLOT_META_SIZE) mem mem' := by
  have hhalf := SlotHalf.half_fits hH.slot_lt
  have hmod := Nat.mod_le H.base (2 ^ 32)
  have hspan : span (H.region.heap_offset + H.base % 2 ^ 32) bytes.length ⊆ heap H.region :=
    span_subset (Nat.le_add_right _ _) (by omega)
  refine AgreeOn.trans (AgreeOn.write ?_) (h.outside.mono (record_subset_compl hne))
  exact (disjoint_span (.inl (slot_address_heap hH.table hj))).mono_right hspan

/-- A failed request whose bytes are harmless leaves nothing behind that lasts. -/
theorem LeftBehind.noLastingEffect (hH : H.InTable) (h : LeftBehind H bytes w.mem w'.mem)
    (hfree : first_free H.region w.mem = some H.slot) (hfits : bytes.length ≤ H.capacity)
    (hharmless : Harmless H bytes w.mem) (hpending : w'.pending = w.pending)
    (hnames : ∀ n s, w'.names n = some s → w.names n = some s) : NoLastingEffect H.region w w' := by
  have hrecords : ∀ {j}, j < H.region.num_slots → first_free H.region w.mem ≠ some j →
      AgreeOn (span (slot_address j) SLOT_META_SIZE) w.mem w'.mem := fun hj hne =>
    h.records hH hfits hj fun hji => hne (hji ▸ hfree)
  refine ⟨fun j hj => ?_, hpending, hnames, fun j hj => hrecords hj, fun j hj hne d => ?_⟩
  · by_cases hji : j = H.slot
    · rw [hji, (first_free_spec hfree).2]
      exact h.free
    · exact load_congr
        ((h.records hH hfits hj hji).symm.mono (span_subset le_rfl (by simp [SLOT_META_SIZE])))
  · have hji : j ≠ H.slot := fun hji => hne (hji ▸ hfree)
    refine AgreeOn.trans ?_ (h.outside.mono ((arena_subset_heap d hj).trans (heap_subset_compl hH)))
    rcases hharmless with hlt | hread
    · rw [Nat.mod_eq_of_lt hlt]
      exact AgreeOn.write ((arena_disjoint (e := H.direction) H.region (.inr hji)).mono_right
        (SlotHalf.arena_subset le_rfl (Nat.add_le_add_left hfits _)))
    · rw [write_eq_self_iff.mpr hread]
      exact .refl _ _

/-- The arenas of the slots before a slot fill the heap up to its own. -/
theorem mem_arena_of_lt {region : ShmRegion} {i x : ℕ}
    (hx : x < i * arena_size region.num_slots region.heap_size) :
    ∃ j < i, ∃ d, region.heap_offset + x ∈ arena region d j := by
  obtain ⟨size, hsize⟩ : ∃ size, size = arena_size region.num_slots region.heap_size := ⟨_, rfl⟩
  rw [← hsize] at hx
  have hpos : 0 < size := Nat.pos_of_ne_zero fun h => by simp [h] at hx
  have hlow := Nat.div_mul_le_self x size
  have hhigh := Nat.lt_div_mul_add (a := x) hpos
  refine ⟨x / size, Nat.div_lt_of_lt_mul (Nat.mul_comm i size ▸ hx), ?_⟩
  by_cases hhalf : x < x / size * size + size / 2 / 8 * 8
  · refine ⟨.request, mem_span.mpr ?_⟩
    simp only [Direction.half, ShmRegion.slot_arenas, slot_arenas, ← hsize]
    omega
  · refine ⟨.response, mem_span.mpr ?_⟩
    simp only [Direction.half, ShmRegion.slot_arenas, slot_arenas, ← hsize]
    omega

/-- A truncated offset points before the arena of its slot, by at least the length of the
metadata. -/
theorem truncated_end_le (h : 2 ^ 32 ≤ H.base) (hd : H.direction = .request) {n : ℕ}
    (hn : n ≤ H.capacity) :
    H.base % 2 ^ 32 + n ≤ H.slot * arena_size H.region.num_slots H.region.heap_size := by
  simp only [SlotHalf.base, SlotHalf.capacity, hd, Direction.half, ShmRegion.slot_arenas,
    slot_arenas] at h hn ⊢
  have hslot : 0 < H.slot := Nat.pos_of_ne_zero fun hz => by simp [hz] at h
  have hle := Nat.le_mul_of_pos_left (arena_size H.region.num_slots H.region.heap_size) hslot
  omega

/-- Bytes that are not harmless are seen in another slot's arena. -/
theorem LeftBehind.lastingEffect (hH : H.InTable) (hd : H.direction = .request)
    (h : LeftBehind H bytes w.mem w'.mem) (hfree : first_free H.region w.mem = some H.slot)
    (hfits : bytes.length ≤ H.capacity) (hharmless : ¬ Harmless H bytes w.mem) :
    ¬ NoLastingEffect H.region w w' := by
  simp only [Harmless, not_or, Nat.not_lt] at hharmless
  obtain ⟨hbase, hread⟩ := hharmless
  intro hnone
  have hend := truncated_end_le hbase hd hfits
  obtain ⟨x, hx⟩ : ∃ x, write w.mem (H.region.heap_offset + H.base % 2 ^ 32) bytes x ≠ w.mem x := by
    by_contra hall
    simp only [ne_eq, not_exists, not_not] at hall
    exact hread (write_eq_self_iff.mp (funext hall))
  have hmem : x ∈ span (H.region.heap_offset + H.base % 2 ^ 32) bytes.length := by
    by_contra hout
    exact hx (write_outside hout)
  obtain ⟨k, rfl⟩ := Nat.exists_eq_add_of_le ((Nat.le_add_right _ _).trans hmem.1)
  have hlow : k < H.slot * arena_size H.region.num_slots H.region.heap_size := by
    have := hmem.2
    omega
  obtain ⟨j, hj, d, harena⟩ := mem_arena_of_lt hlow
  have hjlt := hj.trans hH.slot_lt
  have hother : first_free H.region w.mem ≠ some j :=
    fun hfj => Nat.ne_of_gt hj (Option.some.inj (hfree.symm.trans hfj))
  have hbefore := hnone.arenas j hjlt hother d _ harena
  have hafter := h.outside _ (heap_subset_compl hH (arena_subset_heap d hjlt harena))
  exact hx (hafter.trans hbefore.symm)

end Effects

namespace Deployment

variable (D : Deployment) {k : ℕ} {call : DispatchCall}

/-- The half of a slot that a request of the hub is written to. -/
def request_half (i : ℕ) : SlotHalf := ⟨.request, D.target, D.hub_region, D.config, i⟩

/-- The condition under which a failure leaves nothing behind: if there is a slot to reserve, the
metadata can be serialized, and if an overflow region is needed the metadata goes to the slot's own
arena, or is there already. -/
def ReleasedOnFailure (call : DispatchCall) (w : World) : Prop :=
  ∀ i, first_free D.hub_region w.mem = some i → ∃ meta_bytes,
    D.request_codec.to_allocvec call.meta_ = .ok meta_bytes ∧
    ((D.request_half i).Spills meta_bytes call.body → Harmless (D.request_half i) meta_bytes w.mem)

variable {D}

/-- What a failed `write_request` of a reserved slot leaves in the mapping. -/
theorem leftBehind_of_write_request {i : ℕ} {meta_bytes : List UInt8} {u : World} {e : SlotBusError}
    (hi : i < D.hub_region.num_slots) (hu : Leaves (w.set_status i SLOT_WRITING).mem w u)
    (hwrite : Runs (machine D.target) t
    (write_request D.target D.hub_region i call.req_id (method_to_u8 call.method)
      meta_bytes call.body D.config) u (.error e) w') :
    Leaves w'.mem w w' ∧
      ∃ bytes, LeftBehind (D.request_half i) bytes w.mem w'.mem ∧
        ((D.request_half i).capacity < meta_bytes.length ∧ bytes = [] ∨
          (D.request_half i).Spills meta_bytes call.body ∧ bytes = meta_bytes) := by
  obtain ⟨m, hleaves, hm⟩ := write_request_error hi hwrite
  refine ⟨⟨rfl, hleaves.pending.trans hu.pending, hleaves.invocations.trans hu.invocations,
    fun n s hs => hu.names n s (hleaves.names n s hs)⟩, ?_⟩
  rw [hleaves.mem]
  rw [hu.mem] at hm
  rcases hm with ⟨hlarge, rfl⟩ | ⟨hspills, rfl⟩
  · exact ⟨[], .of_place_header (H := D.request_half i) _ _ _, .inl ⟨hlarge, rfl⟩⟩
  · exact ⟨meta_bytes, .of_place_meta (H := D.request_half i) _ _ _ _, .inr ⟨hspills, rfl⟩⟩

/-- If the metadata of a reserved slot cannot be serialized, the dispatch returns at once. -/
theorem dispatch_unserializable {i : ℕ} (hfree : first_free D.hub_region w.mem = some i)
    {text : String} (hmeta : D.request_codec.to_allocvec call.meta_ = .error text) :
    ∃ log, Runs (machine D.target) t (D.dispatch k call).run w (.error (.Serialization text))
      { w.set_status i SLOT_WRITING with log := log } := by
  obtain ⟨v, u, hclaim⟩ := claim_first_exists D.target t (List.range D.hub_region.num_slots) w
  obtain ⟨hv, log, rfl⟩ := claim_free_slot_runs hclaim
  obtain rfl := hv.trans hfree
  refine ⟨log,
    Runs.bind_iff.mpr ⟨.ok (some i), _, Runs.bind_iff.mpr ⟨some i, _, hclaim, .done _ _⟩, ?_⟩⟩
  simp only [ExceptT.bindCont, hmeta]
  exact .done _ _

/-- If writing the request of a reserved slot can fail, so can the dispatch. -/
theorem dispatch_fails_of_write_request {i : ℕ} (hfree : first_free D.hub_region w.mem = some i)
    {meta_bytes : List UInt8} (hmeta : D.request_codec.to_allocvec call.meta_ = .ok meta_bytes)
    (hwrite : ∀ u, ∃ e u',
      Runs (machine D.target) t (write_request D.target D.hub_region i call.req_id
            (method_to_u8 call.method) meta_bytes call.body D.config) u (.error e) u') :
    ∃ e w', Runs (machine D.target) t (D.dispatch k call).run w (.error e) w' := by
  obtain ⟨v, u, hclaim⟩ := claim_first_exists D.target t (List.range D.hub_region.num_slots) w
  obtain ⟨hv, log, rfl⟩ := claim_free_slot_runs hclaim
  obtain rfl := hv.trans hfree
  obtain ⟨e, w', hwrite⟩ := hwrite _
  refine ⟨e, w',
    Runs.bind_iff.mpr ⟨.ok (some i), _, Runs.bind_iff.mpr ⟨some i, _, hclaim, .done _ _⟩, ?_⟩⟩
  simp only [ExceptT.bindCont, hmeta]
  exact runs_overflow_remove.mpr (Runs.bind_iff.mpr ⟨_, _, hwrite, .done _ _⟩)

/-- **When a failed dispatch has no lasting effect**, run without interference. -/
theorem failed_dispatch_iff {raw : ShmRegion} {old mem : Memory}
    (hlaid : raw.init_control D.config old = .ok (D.hub_region, mem)) (k : ℕ)
    (call : DispatchCall) (w : World) :
    (∀ t e w', Runs (machine D.target) t (D.dispatch k call).run w (.error e) w' →
      NoLastingEffect D.hub_region w w') ↔
      D.ReleasedOnFailure call w := by
  have hH : ∀ {i}, first_free D.hub_region w.mem = some i → (D.request_half i).InTable :=
    fun hfree =>
    ⟨init_control_table hlaid, (first_free_spec hfree).1⟩
  constructor
  · intro h i hfree
    cases hmeta : D.request_codec.to_allocvec call.meta_ with
    | error text =>
        obtain ⟨log, hrun⟩ := dispatch_unserializable (t := .watcher) (k := k) hfree hmeta
        have hnone := h _ _ _ hrun
        have hstatus := hnone.statuses i (first_free_spec hfree).1
        rw [(first_free_spec hfree).2] at hstatus
        have hwriting : slot_status (w.set_status i SLOT_WRITING).mem i = SLOT_WRITING :=
          load_write_same
        exact absurd (hwriting.symm.trans hstatus) (by decide)
    | ok meta_bytes =>
        refine ⟨meta_bytes, rfl, fun hspills => ?_⟩
        by_contra hharmful
        have hslot := (hH hfree).slot_lt
        obtain ⟨e, w', hrun⟩ := dispatch_fails_of_write_request (t := .watcher) (k := k) hfree hmeta
          fun u => write_request_refused hslot hspills _ _ u
        rcases D.dispatch_runs hrun with ⟨hnone, -⟩ | ⟨j, hfree', hcases⟩
        · rw [hfree] at hnone
          cases hnone
        obtain rfl := Option.some.inj (hfree.symm.trans hfree')
        rcases hcases with ⟨text, -, herror, -⟩ |
          ⟨meta_bytes', u, written, v, hok, hu, hwrite, ⟨e', rfl, -, rfl⟩ | ⟨o, -, hresult, -⟩⟩
        · rw [hmeta] at herror
          cases herror
        on_goal 2 => cases hresult
        obtain rfl := Except.ok.inj (hmeta.symm.trans hok)
        obtain ⟨-, bytes, hleft, ⟨hlarge, -⟩ | ⟨-, rfl⟩⟩ :=
          leftBehind_of_write_request hslot hu hwrite
        · exact absurd hspills.meta_fits (Nat.not_le_of_lt hlarge)
        · exact hleft.lastingEffect (hH hfree) rfl hfree hspills.meta_fits hharmful (h _ _ _ hrun)
  · intro h t e w' hrun
    rcases D.dispatch_runs hrun with ⟨hnone, -, log, rfl⟩ | ⟨i, hfree, ⟨text, log, hmeta, -⟩ |
      ⟨meta_bytes, u, written, v, hmeta, hu, hwrite, ⟨e', rfl, -, rfl⟩ | ⟨o, -, hresult, -⟩⟩⟩
    on_goal 4 => cases hresult
    · exact ⟨fun _ _ => rfl, rfl, fun _ _ h => h, fun _ _ _ => .refl _ _, fun _ _ _ _ => .refl _ _⟩
    · obtain ⟨meta_bytes, hok, -⟩ := h i hfree
      rw [hmeta] at hok
      cases hok
    · obtain ⟨meta_bytes', hok, hharmless⟩ := h i hfree
      obtain rfl := Except.ok.inj (hmeta.symm.trans hok)
      obtain ⟨hleaves, bytes, hleft, hbytes⟩ :=
        leftBehind_of_write_request (hH hfree).slot_lt hu hwrite
      rcases hbytes with ⟨-, rfl⟩ | ⟨hspills, rfl⟩
      · exact hleft.noLastingEffect (hH hfree) hfree (Nat.zero_le _) (.inr rfl)
          hleaves.pending hleaves.names
      · exact hleft.noLastingEffect (hH hfree) hfree hspills.meta_fits
          (hharmless hspills) hleaves.pending
          hleaves.names

/-- A call whose body does not fit into the small bus. -/
def spilling_call : DispatchCall := ⟨"a", "GET", small_request, List.replicate 64 7⟩

theorem failed_dispatch_iff_small : ∃ w',
    Runs (machine .linux) (.dispatch 0) (narrow_bus.dispatch 0 spilling_call).run small_world
        (.error (.SharedMemory "create 'p-n-req-0': refused")) w' ∧
      NoLastingEffect small_region small_world w' := by
  obtain ⟨w', hrun⟩ :=
    Machine.exists_run (M := machine .linux) (t := .dispatch 0) (c := ⟨true, "refused"⟩)
    (p := (narrow_bus.dispatch 0 spilling_call).run) (s := small_world)
    (v := .error (.SharedMemory "create 'p-n-req-0': refused")) (by decide +kernel)
  have hreleased : narrow_bus.ReleasedOnFailure spilling_call small_world := by
    intro i hfree
    refine ⟨[], by decide, fun _ => .inl ?_⟩
    obtain rfl :
        0 = i := Option.some.inj
        ((by decide : first_free small_region small_world.mem = some 0).symm.trans hfree)
    decide
  exact ⟨w', hrun,
    (failed_dispatch_iff (D := narrow_bus) small_region_laid_out 0 spilling_call small_world).mpr
    hreleased (.dispatch 0) _ w' hrun⟩

/-- **A request that cannot be serialized takes its slot with it.** -/
theorem unserializable_request_keeps_slot : ∃ w',
    Runs (machine .linux) (.dispatch 0)
      (narrow_bus.dispatch 0 ⟨"a", "GET", ⟨"other", "", [], none, []⟩, []⟩).run
        small_world (.error (.Serialization "unsupported")) w' ∧
      slot_status small_world.mem 0 = SLOT_FREE ∧ slot_status w'.mem 0 = SLOT_WRITING ∧
      ¬ NoLastingEffect small_region small_world w' := by
  have hfree : first_free small_region small_world.mem = some 0 := by decide
  obtain ⟨log, hrun⟩ : ∃ log, Runs (machine .linux) (.dispatch 0)
      (narrow_bus.dispatch 0 ⟨"a", "GET", ⟨"other", "", [], none, []⟩, []⟩).run small_world
      (.error (.Serialization "unsupported"))
      { small_world.set_status 0 SLOT_WRITING with log := log } :=
    dispatch_unserializable (D := narrow_bus) hfree (by decide)
  have hwriting : slot_status (small_world.set_status 0 SLOT_WRITING).mem 0 = SLOT_WRITING :=
    load_write_same
  refine ⟨_, hrun, by decide, hwriting, fun hnone => ?_⟩
  have hstatus := hnone.statuses 0 (by decide)
  exact absurd (hwriting.symm.trans hstatus) (by decide)

end Deployment

end SlotBus
