import SlotBus.Geometry
import SlotBus.Solo

/-!
# Readers stay in the mapping

A reader takes every offset, every length and every marker from memory that the other process can
write, and may find something else at each of its reads.  What it does with them is checked against
the layout that its handle has cached.

* `bounded` — the reads that are in bounds, as a typestate: in an overflow region only bytes below
  the length that opening it has reported;
* `heap_read_checked_usize_eq` — in 64-bit arithmetic nothing wraps;
* `read_request_bounded`, `read_response_bounded` — the readers keep to it, whatever they find;
* `read_payload_ends_iff` — they return, unless they have to make up an overflow name that macOS
  cuts inside a character.
-/

namespace SlotBus

open ByteMemory AtomicProgram AtomicProgram.Program

/-! ### Handles whose layout has been checked -/

/-- A handle that has passed `init_control` or `validate_control`. -/
inductive Checked (region : ShmRegion) : Prop where
  | init {raw : ShmRegion} {config : SlotBusConfig} {old mem : Memory}
      (h : raw.init_control config old = .ok (region, mem))
  | validate {raw : ShmRegion} {mem : Memory} (h : raw.validate_control mem = .ok region)

/-- The cached heap lies in the mapping. -/
theorem Checked.heap_end_le {region : ShmRegion} (h : Checked region) :
    region.heap_offset + region.heap_size ≤ region.len := by
  cases h with
  | init h =>
      rw [init_control_len h]
      exact (init_control_bytes h).1
  | @validate raw mem h =>
      by_cases haccepted : HeaderAccepted raw mem
      · rw [ShmRegion.validate_control_of_accepted haccepted] at h
        obtain rfl := Except.ok.inj h
        exact haccepted.heap_end
      · obtain ⟨e, he⟩ := ShmRegion.validate_control_of_not_accepted haccepted
        rw [he] at h
        cases h

theorem Checked.heap_subset {region : ShmRegion} (h : Checked region) :
    heap region ⊆ span 0 region.len :=
  span_subset (Nat.zero_le _) (by simpa using h.heap_end_le)

/-! ### 64-bit arithmetic -/

/-- `usize::checked_add`. -/
def checked_add (a b : ℕ) : Option ℕ := if a + b < 2 ^ 64 then some (a + b) else none

/-- `heap_read_checked` in machine words: the sum of the check is checked, that of the address
wraps. -/
def ShmRegion.heap_read_checked_usize (region : ShmRegion) (offset len : ℕ) :
    Fallible (List UInt8) :=
  let error : SlotBusError := .InvalidRegion
    s!"heap read out of bounds: offset={offset} len={len} heap_size={region.heap_size}"
  match checked_add offset len with
  | some stop =>
      if stop ≤ region.heap_size then read_bytes ((region.heap_offset + offset) % 2 ^ 64)
        len else throw error
  | none => throw error

/-- **No sum of a checked read wraps**: in machine words it is the same program. -/
theorem heap_read_checked_usize_eq {region : ShmRegion}
    (h : region.heap_offset + region.heap_size < 2 ^ 64) (offset len : ℕ) :
    region.heap_read_checked_usize offset len = region.heap_read_checked offset len := by
  unfold ShmRegion.heap_read_checked_usize ShmRegion.heap_read_checked checked_add
  by_cases hfits : offset + len ≤ region.heap_size
  · have haddress : (region.heap_offset + offset) % 2 ^ 64 = region.heap_offset + offset :=
      Nat.mod_eq_of_lt (by omega)
    simp only [if_pos (show offset + len < 2 ^ 64 by omega), if_pos hfits, haddress]
  · by_cases hsum : offset + len < 2 ^ 64
    · simp only [if_pos hsum, if_neg hfits]
    · simp only [if_neg hsum, if_neg hfits]

/-! ### Reads in bounds -/

/-- A reader of slot `i` reads the record of the slot and the heap, and of an overflow region only
what lies below the length that opening it has reported. -/
def bounded (region : ShmRegion) (i : ℕ) : Typestate bus (Option (ℕ × ℕ)) where
  allowed
    | _, .read a n => span a n ⊆ span (slot_address i) SLOT_META_SIZE ∨ span a n ⊆ heap region
    | _, .shm_open _ => True
    | opened, .shm_read s n => ∃ len, opened = some (s, len) ∧ n ≤ len
    | _, .panic => True
    | _, _ => False
  next
    | _, .shm_open _, .ok opened => some opened
    | q, _, _ => q

section Readers

variable {α β : Type} {target : Target} {region : ShmRegion} {config : SlotBusConfig} {i : ℕ}

/-- Nothing is required of the result. -/
abbrev Anyway {γ : Type} : γ → Option (ℕ × ℕ) → Prop := fun _ _ => True

/-- An error of one part ends a reader. -/
theorem bounded_bind {p : Fallible α} {f : α → Fallible β} {q : Option (ℕ × ℕ)}
    (hp : (bounded region i).Keeps (fun _ q' => q' = q) q p.run)
    (hf : ∀ v, (bounded region i).Keeps Anyway q (f v).run) :
    (bounded region i).Keeps Anyway q (p >>= f).run := by
  refine Typestate.Keeps.bind_except (hp.mono fun result q' hq => ?_)
  cases result with
  | error e => trivial
  | ok v => exact hq ▸ hf v

theorem bounded_bind_any {p : Fallible α} {f : α → Fallible β} {q : Option (ℕ × ℕ)}
    (hp : (bounded region i).Keeps Anyway q p.run)
    (hf : ∀ v q, (bounded region i).Keeps Anyway q (f v).run) :
    (bounded region i).Keeps Anyway q (p >>= f).run := by
  refine Typestate.Keeps.bind_except (hp.mono fun result q' _ => ?_)
  cases result with
  | error e => trivial
  | ok v => exact hf v q'

theorem read_record_bounded {k n : ℕ} (h : k + n ≤ SLOT_META_SIZE) (q : Option (ℕ × ℕ)) :
    (bounded region i).Keeps (fun _ q' => q' = q) q
    (liftM (read_field i k n) : Fallible ℕ).run := by
  refine ⟨.inl (span_subset (Nat.le_add_right _ _) ?_), fun _ => rfl⟩
  omega

theorem heap_read_bounded (offset len : ℕ) (q : Option (ℕ × ℕ)) :
    (bounded region i).Keeps (fun _ q' => q' = q) q (region.heap_read_checked offset len).run := by
  unfold ShmRegion.heap_read_checked
  split
  · refine ⟨.inr (span_subset (Nat.le_add_right _ _) ?_), fun _ => rfl⟩
    omega
  · rfl

theorem or_panic_bounded (x : Option α) (q : Option (ℕ × ℕ)) :
    (bounded region i).Keeps (fun _ q' => q' = q) q (or_panic x).run := by
  cases x with
  | none => exact ⟨trivial, fun (y : Empty) => y.elim⟩
  | some v => rfl

theorem from_except_bounded (x : Except SlotBusError α) (q : Option (ℕ × ℕ)) :
    (bounded region i).Keeps (fun _ q' => q' = q) q (from_except x).run := by
  cases x <;> rfl

/-- An overflow region is read only below its length. -/
theorem read_overflow_bounded (n : String) (len : ℕ) (q : Option (ℕ × ℕ)) :
    (bounded region i).Keeps Anyway q (ShmRegion.read_overflow n len).run := by
  refine ⟨trivial, fun (x : Except String (ℕ × ℕ)) => ?_⟩
  cases x with
  | error e => trivial
  | ok opened =>
      show (bounded region i).Keeps Anyway (some opened)
          (ExceptT.run (if opened.2 < len then _ else _))
      split
      · trivial
      · rename_i hlen
        exact ⟨⟨opened.2, rfl, by omega⟩, fun _ => trivial⟩

theorem read_payload_bounded (d : Direction) (codec : Codec α) (f : α × List UInt8 → Fallible β)
    (hf : ∀ v q, (bounded region i).Keeps Anyway q (f v).run) (q : Option (ℕ × ℕ)) :
    (bounded region i).Keeps Anyway q (read_payload d codec target region i config >>= f).run := by
  have hfield : ∀ k n, k + n ≤ 17 → d.fields + k + n ≤ SLOT_META_SIZE := by
    intro k n h
    cases d <;> simp only [Direction.fields, SLOT_META_SIZE] <;> omega
  unfold read_payload
  simp only [bind_assoc]
  apply bounded_bind (read_record_bounded (hfield 0 4 (by omega)) q)
  intro meta_offset
  apply bounded_bind (read_record_bounded (hfield 4 2 (by omega)) q)
  intro meta_len
  apply bounded_bind (heap_read_bounded meta_offset meta_len q)
  intro meta_bytes
  apply bounded_bind (from_except_bounded _ q)
  intro m
  apply bounded_bind (read_record_bounded (hfield 12 4 (by omega)) q)
  intro body_len
  apply bounded_bind (read_record_bounded (hfield 16 1 (by omega)) q)
  intro marker
  apply bounded_bind_any
  · split
    · trivial
    split
    · apply bounded_bind (read_record_bounded (hfield 8 4 (by omega)) q)
      intro body_offset
      exact bounded_bind (heap_read_bounded body_offset body_len q) fun _ => trivial
    · apply bounded_bind (or_panic_bounded _ q)
      intro name
      exact bounded_bind_any (read_overflow_bounded name body_len q) fun _ _ => trivial
  · exact hf

/-- **`read_request` stays in bounds**, whatever it finds. -/
theorem read_request_bounded (codec : Codec RequestMeta) (q : Option (ℕ × ℕ)) :
    (bounded region i).Keeps Anyway q (read_request codec target region i config).run := by
  unfold read_request
  apply bounded_bind (p := (liftM (read_req_id i) : Fallible String))
  · exact ⟨.inl (span_subset (Nat.le_add_right _ _) (by simp only [SLOT_META_SIZE]; omega)),
      fun _ => rfl⟩
  intro req_id
  apply bounded_bind (read_record_bounded (by decide) q)
  intro method
  apply read_payload_bounded .request codec _ _ q
  intro v q'
  trivial

/-- **`read_response` stays in bounds**, whatever it finds. -/
theorem read_response_bounded (codec : Codec ResponseMeta) (q : Option (ℕ × ℕ)) :
    (bounded region i).Keeps Anyway q (read_response codec target region i config).run := by
  unfold read_response
  apply bounded_bind (read_record_bounded (by decide) q)
  intro status
  apply read_payload_bounded .response codec _ _ q
  intro v q'
  trivial

/-! ### Readers return -/

/-- Nothing keeps the program from running to its end. -/
def Ends (target : Target) (t : Thread) {γ : Type} (p : Program bus γ) (w : World) : Prop :=
  ∃ v w', Runs (machine target) t p w v w'

variable {t : Thread} {w : World}

theorem ends_done {γ : Type} (v : γ) : Ends target t (.done v : Program bus γ) w :=
  ⟨v, w, .done v w⟩

theorem ends_of_effect {a : Action} {r : Answer a} {u : World} {k : Answer a → Program bus β}
    (h : ∀ c, effect target c w a = some (r, u)) :
    Ends target t (.act a k) w ↔ Ends target t (k r) { u with log := ⟨t, a, r⟩ :: u.log } := by
  unfold Ends
  simp only [runs_of_effect h]

/-- A field of the slot record. -/
theorem ends_read_field {k n : ℕ} {f : ℕ → Fallible β} :
    Ends target t ((liftM (read_field i k n) : Fallible ℕ) >>= f).run w ↔
      Ends target t (f (load w.mem (slot_address i + k) n)).run
        (w.saw t (slot_address i + k) n) :=
  exists_congr fun _ => exists_congr fun _ => runs_read_field

/-- A read of the heap that is in bounds. -/
theorem ends_heap_read {offset len : ℕ} {f : List UInt8 → Fallible β}
    (h : offset + len ≤ region.heap_size) :
    Ends target t (region.heap_read_checked offset len >>= f).run w ↔
      Ends target t (f (read w.mem (region.heap_offset + offset) len)).run
        (w.saw t (region.heap_offset + offset) len) :=
  exists_congr fun _ => exists_congr fun _ => runs_heap_read h

theorem ends_heap_read_of_not {offset len : ℕ} {f : List UInt8 → Fallible β}
    (h : ¬ offset + len ≤ region.heap_size) :
    Ends target t (region.heap_read_checked offset len >>= f).run w := by
  unfold ShmRegion.heap_read_checked
  rw [if_neg h]
  exact ends_done _

/-- A read of the heap keeps a program from ending only if what follows does. -/
theorem ends_heap_read_any (offset len : ℕ) {f : List UInt8 → Fallible β}
    (hf : ∀ v w, Ends target t (f v).run w) :
    Ends target t (region.heap_read_checked offset len >>= f).run w := by
  by_cases h : offset + len ≤ region.heap_size
  · exact (ends_heap_read h).mpr (hf _ _)
  · exact ends_heap_read_of_not h

theorem ends_read_overflow (n : String) (len : ℕ) {f : List UInt8 → Fallible β}
    (hf : ∀ v w, Ends target t (f v).run w) :
    Ends target t (ShmRegion.read_overflow n len >>= f).run w := by
  obtain ⟨result, u, hread⟩ := run_of_reads target t
    (read_overflow_confined (fun _ => trivial) (fun _ _ => trivial) n len) w
  cases result with
  | error e => exact ⟨.error e, u, Runs.bind_iff.mpr ⟨_, _, hread, .done _ _⟩⟩
  | ok bytes =>
      obtain ⟨v, w', hrest⟩ := hf bytes u
      exact ⟨v, w', Runs.bind_iff.mpr ⟨_, _, hread, hrest⟩⟩

/-- The reader gets to an overflow name that cannot be made up: the metadata can be read and
deserialized, there is a body, and its marker stands for a generation without a name. -/
def CutsName (d : Direction) (codec : Codec α) (target : Target) (region : ShmRegion) (i : ℕ)
    (config : SlotBusConfig) (m : Memory) : Prop :=
  let field (k n : ℕ) := load m (slot_address i + (d.fields + k)) n
  field 0 4 + field 4 2 ≤ region.heap_size ∧
    (∃ v, codec.from_bytes (read m (region.heap_offset + field 0 4) (field 4 2)) = .ok v) ∧
    field 12 4 ≠ 0 ∧
    ∃ g, overflow_generation (UInt8.ofNat (field 16 1)) = some g ∧
      d.overflow_name_gen config target i g = none

/-- Reading the body. -/
theorem ends_body_iff (d : Direction) (v : α) (body_len : ℕ) (marker : UInt8)
    {f : α × List UInt8 → Fallible β} (hf : ∀ v w, Ends target t (f v).run w) (w : World) :
    Ends target t ((if body_len = 0 then pure (v, []) else
        match overflow_generation marker with
        | none => do
            let body_offset ← read_field i (d.fields + 8) 4
            let body ← region.heap_read_checked body_offset body_len
            pure (v, body)
        | some generation => do
            let name ← or_panic (d.overflow_name_gen config target i generation)
            let body ← ShmRegion.read_overflow name body_len
            pure (v, body)) >>= f).run w ↔
      ¬ (body_len ≠ 0 ∧ ∃ g, overflow_generation marker = some g ∧
        d.overflow_name_gen config target i g = none) := by
  by_cases hzero : body_len = 0
  · rw [if_pos hzero]
    exact iff_of_true (hf _ w) fun h => h.1 hzero
  rw [if_neg hzero]
  cases hgen : overflow_generation marker with
  | none =>
      simp only [bind_assoc, ends_read_field]
      refine iff_of_true (ends_heap_read_any _ _ fun bytes u => hf _ u) fun h => ?_
      obtain ⟨g, hg, _⟩ := h.2
      cases hg
  | some g =>
      simp only [bind_assoc]
      cases hname : d.overflow_name_gen config target i g with
      | none =>
          -- making up the name panics
          refine iff_of_false (fun h => ?_) fun h => h ⟨hzero, g, rfl, hname⟩
          obtain ⟨result, w', hrun⟩ := h
          obtain ⟨c, x, u, hx, hk⟩ := Runs.act_iff.mp hrun
          exact Empty.elim x
      | some name =>
          refine iff_of_true (ends_read_overflow name _ fun bytes u => hf _ u) fun h => ?_
          obtain ⟨g', hg', hnone⟩ := h.2
          obtain rfl := Option.some.inj hg'
          rw [hname] at hnone
          cases hnone

/-- **A reader returns, unless it gets to a name that cannot be made up.** -/
theorem read_payload_ends_iff (d : Direction) (codec : Codec α) {f : α × List UInt8 → Fallible β}
    (hf : ∀ v w, Ends target t (f v).run w) (w : World) :
    Ends target t (read_payload d codec target region i config >>= f).run w ↔
      ¬ CutsName d codec target region i config w.mem := by
  unfold read_payload CutsName
  simp only [bind_assoc]
  rw [ends_read_field, ends_read_field]
  simp only [World.saw_mem, Nat.add_zero]
  by_cases hmeta :
      load w.mem (slot_address i + d.fields) 4 + load w.mem (slot_address i + (d.fields + 4)) 2 ≤
      region.heap_size
  · rw [ends_heap_read hmeta]
    simp only [World.saw_mem]
    generalize codec.from_bytes _ = decoded
    cases decoded with
    | error e =>
        refine iff_of_true (ends_done _) fun h => ?_
        obtain ⟨v, hv⟩ := h.2.1
        cases hv
    | ok v =>
        simp only [Except.mapError, from_except, pure_bind]
        rw [ends_read_field, ends_read_field]
        refine (ends_body_iff d v _ _ hf _).trans ?_
        simp only [World.saw_mem]
        rw [not_iff_not]
        exact ⟨fun h => ⟨hmeta, ⟨v, rfl⟩, h⟩, fun h => h.2.2⟩
  · exact iff_of_true (ends_heap_read_of_not hmeta) fun h => hmeta h.1

theorem read_request_ends_iff (codec : Codec RequestMeta) (w : World) :
    Ends target t (read_request codec target region i config).run w ↔
      ¬ CutsName .request codec target region i config w.mem := by
  unfold read_request
  have hid : ∀ f : String → Fallible (String × UInt8 × RequestMeta × List UInt8),
      Ends target t ((liftM (read_req_id i) : Fallible String) >>= f).run w ↔
        Ends target t (f (decode_req_id (read w.mem (slot_address i + 4) 36))).run
          (w.saw t (slot_address i + 4) 36) :=
    fun f => ends_of_effect (a := .read (slot_address i + 4) 36)
      (k := fun r => (f (decode_req_id r)).run) fun _ => rfl
  rw [hid, ends_read_field]
  exact read_payload_ends_iff .request codec (fun _ _ => ends_done _) _

theorem read_response_ends_iff (codec : Codec ResponseMeta) (w : World) :
    Ends target t (read_response codec target region i config).run w ↔
      ¬ CutsName .response codec target region i config w.mem := by
  unfold read_response
  rw [ends_read_field]
  exact read_payload_ends_iff .response codec (fun _ _ => ends_done _) _

end Readers

/-- **Reading arbitrary shared memory stays in bounds.**  Whatever the region contains and whatever
changes while it is read, the readers touch the record of the slot, the cached heap, and the bytes
of an overflow region below its length; no sum of theirs wraps.  They return exactly if they do not
get to an overflow name that cannot be made up. -/
theorem readers_stay_in_bounds {region : ShmRegion} (hchecked : Checked region)
    (hlen : region.len < 2 ^ 64) {i : ℕ} (hrecord : slot_address i + SLOT_META_SIZE ≤ region.len)
    (target : Target) (config : SlotBusConfig) (request_codec : Codec RequestMeta)
    (response_codec : Codec ResponseMeta) :
    heap region ⊆ span 0 region.len ∧ slot_address i + SLOT_META_SIZE < 2 ^ 64 ∧
      (∀ offset len, region.heap_read_checked_usize offset len =
        region.heap_read_checked offset len) ∧
      (bounded region i).Keeps Anyway none (read_request request_codec target region i config).run ∧
      (bounded region i).Keeps Anyway none
      (read_response response_codec target region i config).run ∧
      ∀ (t : Thread) (w : World),
        (Ends target t (read_request request_codec target region i config).run w ↔
          ¬ CutsName .request request_codec target region i config w.mem) ∧
        (Ends target t (read_response response_codec target region i config).run w ↔
          ¬ CutsName .response response_codec target region i config w.mem) := by
  have hheap := hchecked.heap_end_le
  refine ⟨hchecked.heap_subset, by omega, heap_read_checked_usize_eq (by omega),
    read_request_bounded _ _,
    read_response_bounded _ _, fun t w => ?_⟩
  exact ⟨read_request_ends_iff _ w, read_response_ends_iff _ w⟩

theorem readers_stay_in_bounds_small :
    heap small_region ⊆ span 0 256 ∧
      (bounded small_region 0).Keeps Anyway none
        (read_request (small_codec small_request [0, 0, 0, 0, 0]) .linux small_region
          0 small_config).run := by
  have hbounds :=
    readers_stay_in_bounds (.init small_region_laid_out) (by decide) (i := 0)
    (by decide) .linux small_config
    (small_codec small_request [0, 0, 0, 0, 0]) (small_codec small_response [0, 0])
  exact ⟨hbounds.1, hbounds.2.2.2.1⟩

/-- A region whose worker name has two bytes in each of its ten characters. -/
def accented_config : SlotBusConfig := ⟨"éééééééééé", "p", 1, 256⟩
def accented_mapping : ShmRegion := ⟨0, 256, "p-éééééééééé", 0, 0, 0⟩
def accented_region : ShmRegion := ⟨0, 256, "p-éééééééééé", 1, 192, 64⟩

/-- Slot 0 with the metadata of an empty request, and a body of one byte in an overflow region of
generation 10. -/
def garbage : Memory :=
  write (write (write (fun _ => 0) (slot_address 0 + 48) [5]) (slot_address 0 + 56) [1])
    (slot_address 0 + 60) [11]

def garbage_world : World := .start garbage (fun _ => none) (fun _ => ⟨0, fun _ => 0, false⟩) 0

/-- On macOS the reader panics over the name of that region. -/
theorem garbage_marker_panics :
    ¬ (∀ (region : ShmRegion) (i : ℕ) (target : Target) (config : SlotBusConfig)
      (codec : Codec RequestMeta) (t : Thread)
        (w : World), Checked region → region.len < 2 ^ 64 →
          slot_address i + SLOT_META_SIZE ≤ region.len →
        (bounded region i).Keeps Anyway none (read_request codec target region i config).run ∧
          Ends target t (read_request codec target region i config).run w) ∧
      Checked accented_region ∧
      ¬ Ends .macos .watcher
        (read_request (small_codec small_request [0, 0, 0, 0, 0]) .macos accented_region
          0 accented_config).run
        garbage_world := by
  have hchecked : Checked accented_region :=
    .init (show accented_mapping.init_control accented_config (fun _ => 0) = _ from rfl)
  have hcut : CutsName .request (small_codec small_request [0, 0, 0, 0, 0]) .macos accented_region 0
      accented_config garbage :=
    ⟨by decide, ⟨small_request, by decide +kernel⟩, by decide, 10, by decide, by decide +kernel⟩
  have hpanics : ¬ Ends .macos .watcher
      (read_request (small_codec small_request [0, 0, 0, 0, 0]) .macos accented_region 0
        accented_config).run garbage_world :=
    fun hends => (read_request_ends_iff _ garbage_world).mp hends hcut
  refine ⟨fun hall => ?_, hchecked, hpanics⟩
  exact hpanics (hall accented_region 0 .macos accented_config _ .watcher garbage_world hchecked
    (by decide) (by decide)).2

end SlotBus
