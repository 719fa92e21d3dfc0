import SlotBus.Isolation
import SlotBus.Foundation.Utf8

/-!
# The request id that comes back

`dispatch` registers a request under the id it was given, and the response watcher looks up what it
decodes from the id field of the slot: the first 36 bytes, up to the first NUL, converted lossily.

* `decode_lossy_encode`, `from_utf8_lossy_eq` — lossy conversion keeps what is valid;
* `decode_clipped_iff` — which ids come back from the field;
* `write_request_id` — what the field holds after a successful `write_request`, whatever it held
  before;
* `decoded_id_iff` — **when the id that is looked up is the one that was registered.**
-/

namespace SlotBus

open ByteMemory AtomicProgram AtomicProgram.Program Utf8

/-! ### Lossy conversion -/

theorem decode_lossy_nil (fuel : ℕ) : decode_lossy fuel [] = [] := by cases fuel <;> rfl

/-- Valid characters are kept. -/
theorem decode_lossy_encode (s : List Char) (fuel : ℕ) (tail : List UInt8) :
    decode_lossy (s.length + fuel) (encode s ++ tail) = s ++ decode_lossy fuel tail := by
  induction s with
  | nil => rw [List.length_nil, Nat.zero_add, encode_nil, List.nil_append, List.nil_append]
  | cons c s ih =>
      have hne : String.utf8EncodeChar c ++ (encode s ++ tail) ≠ [] := by
        have := c.utf8Size_pos
        intro h
        rw [← List.length_eq_zero_iff, List.length_append, String.length_utf8EncodeChar] at h
        omega
      rw [List.length_cons, Nat.add_right_comm, encode_cons, List.append_assoc,
        decode_lossy.eq_3 _ _ hne,
        decodeChar_encode]
      simp only []
      rw [← String.length_utf8EncodeChar, List.drop_left, ih, List.cons_append]

/-- In front of a cut character, lossy conversion puts a replacement character. -/
theorem decode_lossy_cut {c : Char} {j : ℕ} (hj : j < c.utf8Size) (hpos : 0 < j) (fuel : ℕ) :
    ∃ more, decode_lossy (fuel + 1) ((String.utf8EncodeChar c).take j) = '\uFFFD' :: more := by
  have hne : (String.utf8EncodeChar c).take j ≠ [] := by
    intro h
    rw [← List.length_eq_zero_iff, List.length_take, String.length_utf8EncodeChar] at h
    omega
  rw [decode_lossy.eq_3 _ _ hne, decodeChar_cut hj]
  exact ⟨_, rfl⟩

/-- Lossy conversion is the same whether or not all the bytes are valid. -/
theorem from_utf8_lossy_eq (bytes : List UInt8) :
    from_utf8_lossy bytes = String.ofList (decode_lossy bytes.length bytes) := by
  unfold from_utf8_lossy
  split
  · rename_i s hs
    have hs' : s.toByteArray = ⟨bytes.toArray⟩ := by
      rw [String.fromUTF8?] at hs
      split at hs
      · rw [← Option.some.inj hs]
        rfl
      · cases hs
    have hbytes : bytes = encode s.toList := by
      have h := hs'.symm.trans (toByteArray_eq s)
      simpa using congrArg (fun b : ByteArray => b.data.toList) h
    obtain ⟨fuel, hfuel⟩ := Nat.exists_eq_add_of_le (length_le_encode s.toList)
    rw [hbytes, hfuel]
    have hdecode := decode_lossy_encode s.toList fuel []
    rw [List.append_nil, decode_lossy_nil, List.append_nil] at hdecode
    rw [hdecode, String.ofList_toList]
  · rfl

/-- Valid characters in front of a cut one. -/
theorem from_utf8_lossy_cut (s : List Char) {tail : List UInt8} (htail : tail ≠ []) :
    ∃ fuel, from_utf8_lossy (encode s ++ tail) =
      String.ofList (s ++ decode_lossy (fuel + 1) tail) := by
  have hs := length_le_encode s
  have hpos := List.length_pos_of_ne_nil htail
  obtain ⟨fuel, hfuel⟩ :=
    Nat.exists_eq_add_of_le (show s.length + 1 ≤ (encode s ++ tail).length from by
      rw [List.length_append]
      omega)
  refine ⟨fuel, ?_⟩
  rw [from_utf8_lossy_eq, hfuel, Nat.add_assoc, decode_lossy_encode, Nat.add_comm 1]

/-! ### The id field -/

theorem toUTF8_toList (s : String) : s.toUTF8.toList = encode s.toList := by
  rw [ByteArray.toList, toList_loop, String.toUTF8_eq_toByteArray, toByteArray_eq]
  simp

/-- An id that ends in a replacement character through which the field cuts. -/
def EndsInCutReplacement (req_id : String) : Prop :=
  ∃ s : String, req_id = s ++ "\uFFFD" ∧ (0 : UInt8) ∉ s.toUTF8.toList ∧
    (s.toUTF8.toList.length = 34 ∨ s.toUTF8.toList.length = 35)

/-- The bytes of the field that count as the id. -/
def clipped (bytes : List UInt8) : List UInt8 := (bytes.take 36).takeWhile (· ≠ 0)

theorem decode_req_id_clipped (bytes : List UInt8) (n : ℕ) :
    decode_req_id (bytes.take 36 ++ List.replicate n 0) = from_utf8_lossy (clipped bytes) := by
  have htail : (List.replicate n (0 : UInt8)).takeWhile (fun b => decide (b ≠ 0)) = [] := by
    cases n <;> simp [List.replicate_succ]
  rw [decode_req_id, List.takeWhile_append, clipped]
  split
  · rename_i hall
    rw [htail, List.append_nil, List.IsPrefix.eq_of_length (List.takeWhile_prefix _) hall]
  · rfl

theorem not_mem_clipped (bytes : List UInt8) : (0 : UInt8) ∉ clipped bytes := by
  intro h
  have hall := List.all_takeWhile (p := fun b : UInt8 => decide (b ≠ 0)) (l := bytes.take 36)
  simpa using List.all_eq_true.mp hall 0 h

/-- What follows the id in the field begins with NUL. -/
theorem clipped_append (bytes : List UInt8) :
    ∃ rest, bytes.take 36 = clipped bytes ++ rest ∧ (rest = [] ∨ ∃ rest', rest = 0 :: rest') := by
  refine ⟨(bytes.take 36).dropWhile (· ≠ 0), (List.takeWhile_append_dropWhile).symm, ?_⟩
  cases hrest : (bytes.take 36).dropWhile (· ≠ 0) with
  | nil => exact .inl rfl
  | cons b rest =>
      have hhead :=
        List.head_dropWhile_not (p := fun b : UInt8 => decide (b ≠ 0)) (l := bytes.take 36)
        (by rw [hrest]; simp)
      simp only [hrest, List.head_cons] at hhead
      exact .inr ⟨rest, by simpa using hhead⟩

/-- The bytes of the replacement character. -/
theorem replacement_bytes : String.utf8EncodeChar '\uFFFD' = [0xEF, 0xBF, 0xBD] := by decide

theorem decode_lossy_replacement {j fuel : ℕ} (hj : j = 1 ∨ j = 2) :
    decode_lossy (fuel + 1) ((String.utf8EncodeChar '\uFFFD').take j) = ['\uFFFD'] := by
  rw [replacement_bytes]
  rcases hj with rfl | rfl
  · show '\uFFFD' :: decode_lossy fuel [] = _
    rw [decode_lossy_nil]
  · show '\uFFFD' :: decode_lossy fuel [] = _
    rw [decode_lossy_nil]

theorem from_utf8_lossy_encode (s : List Char) : from_utf8_lossy (encode s) = String.ofList s := by
  have h := from_utf8_lossy_toUTF8 (String.ofList s)
  rwa [toUTF8_toList, String.toList_ofList] at h

/-- If lossy conversion of a cut text gives the whole text, then the cut goes through a final
replacement character. -/
theorem cut_of_decoded {s more : List Char} {c : Char} {j : ℕ} (hj : j < c.utf8Size)
    (h : from_utf8_lossy (encode s ++ (String.utf8EncodeChar c).take j) =
      String.ofList (s ++ c :: more)) :
    c = '\uFFFD' ∧ more = [] ∧ (j = 1 ∨ j = 2) := by
  rcases Nat.eq_zero_or_pos j with rfl | hpos
  · rw [List.take_zero, List.append_nil, from_utf8_lossy_encode, String.ofList_inj] at h
    have hlen := congrArg List.length h
    simp at hlen
  · have hne : (String.utf8EncodeChar c).take j ≠ [] := by
      intro hnil
      rw [← List.length_eq_zero_iff, List.length_take, String.length_utf8EncodeChar] at hnil
      omega
    obtain ⟨fuel, hfuel⟩ := from_utf8_lossy_cut s hne
    rw [hfuel, String.ofList_inj, List.append_cancel_left_eq] at h
    obtain ⟨more', hcut⟩ := decode_lossy_cut hj hpos fuel
    obtain ⟨rfl, -⟩ := List.cons.inj (h.symm.trans hcut)
    have hj' : j = 1 ∨ j = 2 := by
      have hsize : ('\uFFFD' : Char).utf8Size = 3 := rfl
      omega
    rw [decode_lossy_replacement hj'] at h
    exact ⟨rfl, (List.cons.inj h).2.symm, hj'⟩

/-- **Which ids come back from the field.** -/
theorem decode_clipped_iff (req_id : String) (n : ℕ) :
    decode_req_id (req_id.toUTF8.toList.take 36 ++ List.replicate n 0) = req_id ↔
      FitsIdField req_id ∨ EndsInCutReplacement req_id := by
  constructor
  · rw [decode_req_id_clipped]
    intro hdecode
    obtain ⟨rest, hfield, hrest⟩ := clipped_append req_id.toUTF8.toList
    have hzero := not_mem_clipped req_id.toUTF8.toList
    have hcutoff : clipped req_id.toUTF8.toList <+: req_id.toUTF8.toList :=
      (List.takeWhile_prefix _).trans (List.take_prefix _ _)
    by_cases hwhole : clipped req_id.toUTF8.toList = req_id.toUTF8.toList
    · -- nothing was cut off
      refine .inl ⟨?_, hwhole ▸ hzero⟩
      rw [← hwhole]
      exact (List.takeWhile_prefix _).length_le.trans (List.length_take_le _ _)
    · right
      have hlt : (clipped req_id.toUTF8.toList).length < req_id.toUTF8.toList.length :=
        lt_of_le_of_ne hcutoff.length_le fun h => hwhole (hcutoff.eq_of_length h)
      obtain ⟨s, c, more, j, hid, hj, hcut⟩ := cut_split (toUTF8_toList req_id ▸ hlt)
      rw [← toUTF8_toList, ← List.prefix_iff_eq_take.mp hcutoff] at hcut
      have hid' : req_id = String.ofList (s ++ c :: more) := by rw [← hid, String.ofList_toList]
      obtain ⟨rfl, rfl, hj'⟩ := cut_of_decoded hj (by rw [← hcut, hdecode, hid'])
      have hbytes : req_id.toUTF8.toList = encode s ++ String.utf8EncodeChar '\uFFFD' := by
        rw [toUTF8_toList, hid]
        simp
      have hs : (String.ofList s).toUTF8.toList = encode s := by
        rw [toUTF8_toList, String.toList_ofList]
      -- the id was not cut off by a NUL, because a replacement character has none
      have hfull : req_id.toUTF8.toList.take 36 = clipped req_id.toUTF8.toList := by
        rcases hrest with rfl | ⟨rest', rfl⟩
        · rw [hfield, List.append_nil]
        · have hsplit := List.take_append_drop 36 req_id.toUTF8.toList
          rw [hfield, hcut, hbytes, List.append_assoc, List.append_assoc,
            List.append_cancel_left_eq] at hsplit
          have hmem : (0 : UInt8) ∈ String.utf8EncodeChar '\uFFFD' := by
            rw [← hsplit]
            simp
          exact absurd hmem (by decide)
      have hlength := congrArg List.length hfull
      rw [List.length_take] at hlength
      have hcutlen := congrArg List.length hcut
      rw [List.length_append, List.length_take, replacement_bytes] at hcutlen
      simp only [List.length_cons, List.length_nil] at hcutlen
      refine ⟨String.ofList s, ?_, ?_, ?_⟩
      · rw [hid', String.ofList_append]
      · rw [hs]
        exact fun h => hzero (hcut ▸ List.mem_append_left _ h)
      · rw [hs]
        omega
  · rintro (hfits | ⟨s, rfl, hzero, hlen⟩)
    · rw [List.take_of_length_le hfits.1, decode_req_id_padded hfits]
    · have hbytes :
          (s ++ "\uFFFD").toUTF8.toList = s.toUTF8.toList ++ String.utf8EncodeChar '\uFFFD' := by
        rw [toUTF8_toList, toUTF8_toList, String.toList_append, encode_append]
        rfl
      obtain ⟨j, hj, hj'⟩ : ∃ j, s.toUTF8.toList.length + j = 36 ∧ (j = 1 ∨ j = 2) := by
        rcases hlen with h | h
        · exact ⟨2, by omega, .inr rfl⟩
        · exact ⟨1, by omega, .inl rfl⟩
      have htake : (s ++ "\uFFFD").toUTF8.toList.take 36 =
          s.toUTF8.toList ++ (String.utf8EncodeChar '\uFFFD').take j := by
        rw [hbytes, ← hj, List.take_length_add_append]
      have hclipped : clipped (s ++ "\uFFFD").toUTF8.toList =
          s.toUTF8.toList ++ (String.utf8EncodeChar '\uFFFD').take j := by
        rw [clipped, htake]
        apply List.takeWhile_eq_self_iff.mpr
        intro b hb
        rcases List.mem_append.mp hb with hb | hb
        · exact decide_eq_true fun h => hzero (h ▸ hb)
        · have hall : (String.utf8EncodeChar '\uFFFD').all (fun b => b ≠ 0) = true := by decide
          exact List.all_eq_true.mp hall b (List.mem_of_mem_take hb)
      rw [decode_req_id_clipped, hclipped, toUTF8_toList]
      have hne : (String.utf8EncodeChar '\uFFFD').take j ≠ [] := by
        rcases hj' with rfl | rfl <;> decide
      obtain ⟨fuel, hfuel⟩ := from_utf8_lossy_cut s.toList hne
      rw [hfuel, decode_lossy_replacement hj', String.ofList_append, String.ofList_toList]

/-! ### What the field holds -/

section Written

variable {target : Target} {region : ShmRegion} {config : SlotBusConfig} {i : ℕ}
    {t u : Thread} {w w' w'' : World}
  {req_id : String} {method : UInt8} {meta_bytes body : List UInt8}

/-- The status store keeps the record. -/
theorem record_of_store {H : SlotHalf} {v : ℕ} {c : Choice} {x : Unit}
    (hx : (machine H.target).exec t (.store H.slot v) c w = some (x, w')) :
    AgreeOn (record H.direction H.slot) w.mem w'.mem := fun y hy =>
  ((exec_changes hx).mem y (Set.notMem_empty y) fun _ hj =>
    Option.some.inj hj ▸ Set.disjoint_left.mp
      (record_disjoint_status H.direction H.slot H.slot) hy).symm

/-- A successful `write_request` leaves the header of the request in the record. -/
theorem write_request_record (hH : SlotHalf.InTable ⟨.request, target, region, config, i⟩)
    {overflow : Option OverflowRegion}
    (h : Runs (machine target) t
    (write_request target region i req_id method meta_bytes body config) w
      (.ok overflow) w') :
    ∃ P, AgreeOn (record .request i)
      (SlotHalf.place ⟨.request, target, region, config, i⟩ meta_bytes body P
        (place_header i req_id method w.mem)) w'.mem := by
  have hsafe : (alone_contract ⟨.request, target, region, config, i⟩ t).Safe t
      (write_request target region i req_id method meta_bytes body config)
      (fun result u => ∀ o, result = .ok o → ∃ P, AgreeOn (record .request i)
        (SlotHalf.place ⟨.request, target, region, config, i⟩ meta_bytes body P
          (place_header i req_id method w.mem)) u.mem) w := by
    refine Tenancy.write_request (T := record_tenancy t hH (region.heap_size < 2 ^ 32) fun hheap =>
      ⟨hH, hheap⟩) (m := w.mem) ⟨trivial, .refl _ _⟩ trivial ?_ ?_
    · intro e u _ _ _
      exact safe_store (H := ⟨.request, target, region, config, i⟩) fun _ _ _ _ _ h => nomatch h
    · intro P u _ hP
      refine safe_store (H := ⟨.request, target, region, config, i⟩) fun c x u' hx _ _ => ⟨P, ?_⟩
      exact (hP.filled.bytes.mono SlotHalf.record_subset_area).trans
        (record_of_store (H := ⟨.request, target, region, config, i⟩) hx)
  exact (hsafe.runs trivial h).2 overflow rfl

/-- The id field is zeroed before the id is copied into it. -/
theorem read_place_header (req_id : String) (method : UInt8) (m : Memory) :
    read (place_header i req_id method m) (slot_address i + 4) 36 =
      req_id.toUTF8.toList.take 36 ++
        List.replicate (36 - (req_id.toUTF8.toList.take 36).length) 0 := by
  have hlen : (req_id.toUTF8.toList.take 36).length +
      (36 - (req_id.toUTF8.toList.take 36).length) = 36 := by
    have := List.length_take_le 36 req_id.toUTF8.toList
    omega
  have hsplit : ∀ m' : Memory, read m' (slot_address i + 4) 36 =
      read m' (slot_address i + 4) (req_id.toUTF8.toList.take 36).length ++
        read m' (slot_address i + 4 + (req_id.toUTF8.toList.take 36).length)
          (36 - (req_id.toUTF8.toList.take 36).length) := fun m' => by
    rw [← read_add, hlen]
  rw [place_header, read_write_disjoint (.inr (by omega)), hsplit, read_write_same,
    read_write_disjoint (.inl le_rfl), read_write_replicate (by omega) (by omega)]

/-- **The id that is looked up is the one that was registered** exactly when it fits into the field,
or ends in a replacement character that the field cuts. -/
theorem decoded_id_iff {raw : ShmRegion} {old mem : Memory}
    (hlaid : raw.init_control config old = .ok (region, mem)) (hi : i < region.num_slots)
    {overflow : Option OverflowRegion} {v : String}
    (hwrite : Runs (machine target) t
      (write_request target region i req_id method meta_bytes body config) w
      (.ok overflow) w')
    (hread : Runs (machine target) u (read_req_id i) w' v w'') :
    v = req_id ↔ FitsIdField req_id ∨ EndsInCutReplacement req_id := by
  have hH : SlotHalf.InTable ⟨.request, target, region, config, i⟩ := ⟨init_control_table hlaid, hi⟩
  obtain ⟨P, hrecord⟩ := write_request_record hH hwrite
  obtain ⟨c, raw', w₁, hx, hdone⟩ := Runs.act_iff.mp hread
  obtain ⟨rfl, rfl⟩ := Runs.done_iff.mp hdone
  obtain ⟨x, hv, rfl⟩ := exec_iff.mp hx
  obtain ⟨rfl, rfl⟩ := Prod.mk.inj (Option.some.inj hv)
  have hid : span (slot_address i + 4) 36 ⊆ record .request i :=
    request_record_subset (by omega) (by omega)
  rw [← hrecord.read hid, hH.place_read (by simp only [SlotHalf.field, Direction.fields]; omega),
    read_place_header]
  exact decode_clipped_iff req_id _

/-- A request on the small bus, and what is read back of its id. -/
def small_round_trip (req_id : String) :
    Program bus (Except SlotBusError (Option OverflowRegion) × String) := do
  let result ← write_request .linux small_region 0 req_id METHOD_GET [0, 0, 0, 0, 0] [] small_config
  let v ← read_req_id 0
  pure (result, v)

theorem decoded_id_iff_small : ∃ w₁ v w₂,
    Runs (machine .linux) (.dispatch 0)
        (write_request .linux small_region 0 "a" METHOD_GET [0, 0, 0, 0, 0] [] small_config)
          small_world (.ok none) w₁ ∧
      Runs (machine .linux) (.dispatch 0) (read_req_id 0) w₁ v w₂ ∧ v = "a" := by
  obtain ⟨w₂, hrun⟩ :=
    Machine.exists_run (M := machine .linux) (t := .dispatch 0) (c := ⟨false, ""⟩)
    (p := small_round_trip "a") (s := small_world) (v := (.ok none, "a")) (by decide +kernel)
  obtain ⟨result, w₁, hwrite, hrest⟩ := Runs.bind_iff.mp hrun
  obtain ⟨v, w₃, hread, hdone⟩ := Runs.bind_iff.mp hrest
  obtain ⟨hresult, rfl⟩ := Runs.done_iff.mp hdone
  obtain ⟨rfl, -⟩ := Prod.mk.inj hresult
  exact ⟨w₁, v, w₂, hwrite, hread,
    (decoded_id_iff small_region_laid_out (by decide) hwrite hread).mpr (.inl (by decide +kernel))⟩

/-- **A longer id is registered whole and looked up clipped.** -/
theorem long_id_is_clipped : ∃ w₁ w₂,
    Runs (machine .linux) (.dispatch 0)
      (write_request .linux small_region 0 "aaaaaaaaaaaaaaaaaaaaaaaaaaaaaaaaaaaaa"
          METHOD_GET [0, 0, 0, 0, 0] [] small_config) small_world (.ok none) w₁ ∧
      Runs (machine .linux) (.dispatch 0) (read_req_id 0) w₁
        "aaaaaaaaaaaaaaaaaaaaaaaaaaaaaaaaaaaa" w₂ := by
  obtain ⟨w₂, hrun⟩ :=
    Machine.exists_run (M := machine .linux) (t := .dispatch 0) (c := ⟨false, ""⟩)
    (p := small_round_trip "aaaaaaaaaaaaaaaaaaaaaaaaaaaaaaaaaaaaa") (s := small_world)
    (v := (.ok none, "aaaaaaaaaaaaaaaaaaaaaaaaaaaaaaaaaaaa")) (by decide +kernel)
  obtain ⟨result, w₁, hwrite, hrest⟩ := Runs.bind_iff.mp hrun
  obtain ⟨v, w₃, hread, hdone⟩ := Runs.bind_iff.mp hrest
  obtain ⟨hresult, rfl⟩ := Runs.done_iff.mp hdone
  obtain ⟨rfl, rfl⟩ := Prod.mk.inj hresult
  exact ⟨w₁, w₂, hwrite, hread⟩

end Written
end SlotBus
