import SlotBus.Tenancy

/-!
# Slot records

The request id, the method and the response status in the slot record, and with them the
specifications of `write_request`, `write_response`, `read_request` and `read_response` up to their
status stores.

* `decode_req_id_place` — an id of at most 36 bytes without NUL is read back as it was written;
* `Tenancy.write_request`, `Tenancy.write_response` — what is known when the status store is
  reached;
* `Lease.read_request`, `Lease.read_response` — what is read back.
-/

namespace SlotBus

open ByteMemory AtomicProgram AtomicProgram.Program

/-! ### The request id -/

/-- A request id that the id field can hold: at most 36 bytes, none of them NUL. -/
def FitsIdField (req_id : String) : Prop :=
  req_id.toUTF8.toList.length ≤ 36 ∧ (0 : UInt8) ∉ req_id.toUTF8.toList

instance (req_id : String) : Decidable (FitsIdField req_id) := inferInstanceAs (Decidable (_ ∧ _))

theorem toList_loop (bytes : ByteArray) (start : ℕ) (acc : List UInt8) :
    ByteArray.toList.loop bytes start acc = acc.reverse ++ bytes.data.toList.drop start := by
  fun_induction ByteArray.toList.loop bytes start acc with
  | case1 start acc hstart ih =>
      have hlt : start < bytes.data.toList.length := by simpa using hstart
      rw [ih, List.drop_eq_getElem_cons hlt]
      simp [ByteArray.get!, hstart]
  | case2 start acc hstart =>
      have hle : bytes.data.toList.length ≤ start := by simpa using hstart
      rw [List.drop_eq_nil_of_le hle, List.append_nil]

theorem from_utf8_lossy_toUTF8 (s : String) : from_utf8_lossy s.toUTF8.toList = s := by
  have h : (⟨s.toUTF8.toList.toArray⟩ : ByteArray) = s.toByteArray := by
    rw [ByteArray.toList, toList_loop]
    simp
  rw [from_utf8_lossy, h, String.fromUTF8?, dif_pos s.isValidUTF8]
  rfl

/-- Everything up to the first NUL is the id. -/
theorem decode_req_id_padded {req_id : String} (h : FitsIdField req_id) (n : ℕ) :
    decode_req_id (req_id.toUTF8.toList ++ List.replicate n 0) = req_id := by
  have hall : ∀ b ∈ req_id.toUTF8.toList, (decide (b ≠ 0)) = true := by
    intro b hb
    exact decide_eq_true fun hzero => h.2 (hzero ▸ hb)
  have htail : (List.replicate n (0 : UInt8)).takeWhile (fun b => decide (b ≠ 0)) = [] := by
    cases n <;> simp [List.replicate_succ]
  rw [decode_req_id, List.takeWhile_append_of_pos hall, htail, List.append_nil,
    from_utf8_lossy_toUTF8]

/-- The mapping after recording the id and the method of a request. -/
def place_header (slot : ℕ) (req_id : String) (method : UInt8) (m : Memory) : Memory :=
  write (write (write m (slot_address slot + 4) (List.replicate 36 0)) (slot_address slot + 4)
    (req_id.toUTF8.toList.take 36)) (slot_address slot + 40) [method]

/-- The mapping after recording the status of a response. -/
def place_status (slot : ℕ) (status : UInt16) (m : Memory) : Memory :=
  write m (slot_address slot + 64) (encodeLE 2 status.toNat)

theorem decode_req_id_place_header {req_id : String} (h : FitsIdField req_id) (slot : ℕ)
    (method : UInt8) (m : Memory) :
    decode_req_id (read (place_header slot req_id method m) (slot_address slot + 4) 36) =
      req_id := by
  have hlen : req_id.toUTF8.toList.length + (36 - req_id.toUTF8.toList.length) = 36 := by
    have := h.1
    omega
  have hread : read (place_header slot req_id method m) (slot_address slot + 4) 36 =
      req_id.toUTF8.toList ++ List.replicate (36 - req_id.toUTF8.toList.length) 0 := by
    rw [place_header, List.take_of_length_le h.1, read_write_disjoint (.inr (by omega)),
      ← hlen, read_add,
      read_write_same, read_write_disjoint (.inl le_rfl), hlen,
      read_write_replicate (by omega) (by omega)]
  rw [hread, decode_req_id_padded h]

theorem method_place_header (slot : ℕ) (req_id : String) (method : UInt8) (m : Memory) :
    UInt8.ofNat (load (place_header slot req_id method m) (slot_address slot + 40) 1) = method := by
  have hread : read (place_header slot req_id method m) (slot_address slot + 40) 1 = [method] :=
    read_write_same _ _ [method]
  rw [load, hread, Lease.decode_marker]

theorem status_place_status (slot : ℕ) (status : UInt16) (m : Memory) :
    UInt16.ofNat (load (place_status slot status m) (slot_address slot + 64) 2) = status := by
  have hlt : status.toNat < 256 ^ 2 := status.toNat_lt
  rw [place_status, load_write_same, Nat.mod_eq_of_lt hlt, UInt16.ofNat_toNat]

namespace SlotHalf

variable {H : SlotHalf}

/-- Placing a payload keeps the record in front of the pointer fields. -/
theorem InTable.place_read (h : H.InTable) {meta_bytes body : List UInt8} {P : Placement}
    {m : Memory} {a n : ℕ} (ha : a + n ≤ H.field 0) :
    read (H.place meta_bytes body P m) a n = read m a n := by
  have h4 : H.field 4 = H.field 0 + 4 := (field_add 0 4).symm
  have h8 : H.field 8 = H.field 0 + 8 := (field_add 0 8).symm
  have hheap : H.field 8 ≤ H.region.heap_offset := h.field_heap (by omega)
  have hinline : ∀ m', read (H.place_inline body m' P) a n = read m' a n := by
    intro m'
    cases P with
    | empty => rfl
    | overflow g r => rfl
    | inline offset => exact read_write_disjoint (by omega)
  rw [place, place_fields_read (by omega), hinline, place_meta, read_write_disjoint (by omega),
    read_write_disjoint (by omega), read_write_disjoint (by omega)]

end SlotHalf

section Placed

variable {target : Target} {region : ShmRegion} {config : SlotBusConfig} {i : ℕ}
  (meta_bytes body : List UInt8) (P : Placement)

/-- The id of a placed request. -/
theorem decode_req_id_place (hH : SlotHalf.InTable ⟨.request, target, region, config, i⟩)
    {req_id : String} (hid : FitsIdField req_id) (method : UInt8) (m : Memory) :
    decode_req_id (read (SlotHalf.place ⟨.request, target, region, config, i⟩ meta_bytes body P
      (place_header i req_id method m)) (slot_address i + 4) 36) = req_id := by
  rw [hH.place_read (by simp only [SlotHalf.field, Direction.fields]; omega),
    decode_req_id_place_header hid]

/-- The method of a placed request. -/
theorem method_place (hH : SlotHalf.InTable ⟨.request, target, region, config, i⟩) (req_id : String)
    (method : UInt8) (m : Memory) :
    UInt8.ofNat (load (SlotHalf.place ⟨.request, target, region, config, i⟩ meta_bytes body P
      (place_header i req_id method m)) (slot_address i + 40) 1) = method := by
  rw [load, hH.place_read (by simp only [SlotHalf.field, Direction.fields]; omega)]
  exact method_place_header i req_id method m

/-- The status of a placed response. -/
theorem status_place (hH : SlotHalf.InTable ⟨.response, target, region, config, i⟩)
    (status : UInt16) (m : Memory) :
    UInt16.ofNat (load (SlotHalf.place ⟨.response, target, region, config, i⟩ meta_bytes body P
      (place_status i status m)) (slot_address i + 64) 2) = status := by
  rw [load, hH.place_read (by simp only [SlotHalf.field, Direction.fields]; omega)]
  exact status_place_status i status m

end Placed

theorem request_record_subset {i k n : ℕ} (h1 : 4 ≤ k) (h2 : k + n ≤ 61) :
    span (slot_address i + k) n ⊆ record .request i := span_subset (by omega) (by omega)

theorem response_record_subset {i k n : ℕ} (h1 : 64 ≤ k) (h2 : k + n ≤ 85) :
    span (slot_address i + k) n ⊆ record .response i := span_subset (by omega) (by omega)

/-! ### Writing -/

variable {L : Type} {M : System bus Thread World Choice L} {C : Contract M} {t : Thread}
  {target : Target} {region : ShmRegion} {config : SlotBusConfig} {i : ℕ} {m : Memory} {w : World}
  {β : Type}

namespace Tenancy

theorem write_request_inner {T : Tenancy C t ⟨.request, target, region, config, i⟩}
    {req_id : String} {method : UInt8} {meta_bytes body : List UInt8}
    {Q : Except SlotBusError (Option OverflowRegion) → World → Prop} (h : T.At m w)
    (herr : ∀ e u, e.is_serialization = false → C.invariant u → T.holds u → Q (.error e) u)
    (hok : ∀ P u, C.invariant u → T.Written meta_bytes body P (place_header i req_id method m) u →
          C.Safe t (.act (.store i SLOT_READY) fun _ => .done (.ok P.handle)) Q u) :
    C.Safe t (SlotBus.write_request_inner target region i req_id method meta_bytes body config).run
      Q w := by
  unfold SlotBus.write_request_inner ensure
  rw [if_pos T.in_table.slot_lt]
  refine write .trivial h True.intro
    (fun _ => SlotHalf.own_record (request_record_subset (by omega) (by simp))) ?_
  intro w₁ _ h₁ _
  have hid : (req_id.toUTF8.toList.take 36).length ≤ 36 := List.length_take_le _ _
  refine write .trivial h₁ True.intro
    (fun _ => SlotHalf.own_record (request_record_subset (by omega) (by omega))) ?_
  intro w₂ _ h₂ _
  refine write .trivial h₂ True.intro
    (fun _ => SlotHalf.own_record (request_record_subset (by omega) (by simp))) ?_
  intro w₃ _ h₃ _
  exact write_payload h₃ herr hok

/-- **Writing a request.**  When the status store is reached the half holds the request; after an
error the slot is released. -/
theorem write_request {T : Tenancy C t ⟨.request, target, region, config, i⟩} {req_id : String}
    {method : UInt8} {meta_bytes body : List UInt8}
    {Q : Except SlotBusError (Option OverflowRegion) → World → Prop} (h : T.At m w)
    (hw : C.invariant w)
    (herr : ∀ e u, e.is_serialization = false → C.invariant u → T.holds u →
      C.Safe t (.act (.store i SLOT_FREE) fun _ => .done (.error e)) Q u)
    (hok : ∀ P u, C.invariant u → T.Written meta_bytes body P (place_header i req_id method m) u →
      C.Safe t (.act (.store i SLOT_READY) fun _ => .done (.ok P.handle)) Q u) :
    C.Safe t (SlotBus.write_request target region i req_id method meta_bytes body config) Q w := by
  unfold SlotBus.write_request
  refine Contract.Safe.bind (write_request_inner h herr fun P u hu hP => ?_) hw
  refine Contract.Safe.of_bind ?_
  exact hok P u hu hP

/-- **Writing a response.** -/
theorem write_response {T : Tenancy C t ⟨.response, target, region, config, i⟩} {status : UInt16}
    {meta_bytes body : List UInt8} {Q : Except SlotBusError (Option OverflowRegion) → World → Prop}
    (h : T.At m w)
    (herr : ∀ e u, e.is_serialization = false → C.invariant u → T.holds u → Q (.error e) u)
    (hok : ∀ P u, C.invariant u → T.Written meta_bytes body P (place_status i status m) u →
      C.Safe t (.act (.store i SLOT_DONE) fun _ => .done (.ok P.handle)) Q u) :
    C.Safe t (SlotBus.write_response target region i status meta_bytes body config).run Q w := by
  unfold SlotBus.write_response ensure
  rw [if_pos T.in_table.slot_lt]
  refine write .trivial h True.intro
    (fun _ => SlotHalf.own_record (response_record_subset le_rfl (by simp))) ?_
  intro w₁ _ h₁ _
  exact write_payload h₁ herr hok

end Tenancy

/-! ### Reading -/

namespace Lease

variable {writer : Thread} {meta_bytes body : List UInt8} {P : Placement}

/-- **Reading a request.** -/
theorem read_request {K : Lease C t ⟨.request, target, region, config, i⟩} (hf : K.faithful)
    (ht : K.tracked) {codec : Codec RequestMeta}
    {Q : Except SlotBusError (String × UInt8 × RequestMeta × List UInt8) → World → Prop}
    (h : K.View m writer body P w)
    (hr : SlotHalf.Recorded ⟨.request, target, region, config, i⟩ meta_bytes body P m)
    (hmeta : meta_bytes.length < 2 ^ 16) (hbody : body.length < 2 ^ 32)
    (hcodec : ∀ e u, codec.from_bytes meta_bytes = .error e → C.invariant u → K.holds u →
      Q (.error (.Serialization e)) u)
    (herr : ¬ K.firm → ∀ e u, e.is_serialization = false → C.invariant u →
      K.holds u → Q (.error e) u)
    (hok : ∀ v u, codec.from_bytes meta_bytes = .ok v → C.invariant u → K.holds u →
      Q (.ok (decode_req_id (ByteMemory.read m (slot_address i + 4) 36),
        UInt8.ofNat (load m (slot_address i + 40) 1),
        v, body)) u) :
    C.Safe t (SlotBus.read_request codec target region i config).run Q w := by
  unfold SlotBus.read_request
  refine Lease.read h ((request_record_subset (by omega) (by omega)).trans Set.subset_union_left)
    fun w₁ _ h₁ => ?_
  refine Lease.read h₁ ((request_record_subset (by omega) (by omega)).trans Set.subset_union_left)
    fun w₂ _ h₂ => ?_
  refine read_payload hf ht h₂ hr hmeta hbody hcodec herr fun v w₃ hv _ h₃ => ?_
  exact Contract.Safe.done stable_view h₃ fun u hu hP => hok v u hv hu hP.holds

/-- **Reading a response.** -/
theorem read_response {K : Lease C t ⟨.response, target, region, config, i⟩} (hf : K.faithful)
    (ht : K.tracked) {codec : Codec ResponseMeta}
    {Q : Except SlotBusError (UInt16 × ResponseMeta × List UInt8) → World → Prop}
    (h : K.View m writer body P w)
    (hr : SlotHalf.Recorded ⟨.response, target, region, config, i⟩ meta_bytes body P m)
    (hmeta : meta_bytes.length < 2 ^ 16) (hbody : body.length < 2 ^ 32)
    (hcodec : ∀ e u, codec.from_bytes meta_bytes = .error e → C.invariant u → K.holds u →
      Q (.error (.Serialization e)) u)
    (herr : ¬ K.firm → ∀ e u, e.is_serialization = false → C.invariant u →
      K.holds u → Q (.error e) u)
    (hok : ∀ v u, codec.from_bytes meta_bytes = .ok v → C.invariant u → K.holds u →
      Q (.ok (UInt16.ofNat (load m (slot_address i + 64) 2), v, body)) u) :
    C.Safe t (SlotBus.read_response codec target region i config).run Q w := by
  unfold SlotBus.read_response
  refine Lease.read h ((response_record_subset le_rfl (by omega)).trans Set.subset_union_left)
    fun w₁ _ h₁ => ?_
  refine read_payload hf ht h₁ hr hmeta hbody hcodec herr fun v w₂ hv _ h₂ => ?_
  exact Contract.Safe.done stable_view h₂ fun u hu hP => hok v u hv hu hP.holds

end Lease
end SlotBus
