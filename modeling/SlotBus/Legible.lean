import SlotBus.Solo

/-!
# When a lone reader and a lone writer succeed

Conditions on what a function finds, not on what it returns: a reader that runs alone does not fail
if the record of the slot is `Legible`, and a writer that needs an overflow region does not fail if
the operating system creates regions and one of the generations has a `FreeName`.

* `Legible` — the metadata can be decoded, and the body is where the record says;
* `read_request_ok_of_legible`, `read_response_ok_of_legible` — the readers of a legible record;
* `host` — an operating system that may refuse to create regions, or one that does not;
* `write_response_ok_of_freeName` — the writer of a response for which there is room.
-/

namespace SlotBus

open ByteMemory AtomicProgram AtomicProgram.Program

variable {target : Target} {t : Thread} {w w' : World}

/-! ### Reading -/

section Reading

variable {α β : Type} {d : Direction} {codec : Codec α} {region : ShmRegion} {i : ℕ}
    {config : SlotBusConfig}

/-- A pointer field of a slot. -/
def pointer_field (d : Direction) (i : ℕ) (mem : Memory) (k n : ℕ) : ℕ :=
  load mem (slot_address i + (d.fields + k)) n

/-- The body is where the record says: nowhere, in the heap, or in an overflow region that can be
opened and is long enough. -/
def BodyFound (d : Direction) (target : Target) (region : ShmRegion) (i : ℕ)
    (config : SlotBusConfig) (w : World) : Prop :=
  let field := pointer_field d i w.mem
  let generation := overflow_generation (UInt8.ofNat (field 16 1))
  field 12 4 ≠ 0 →
    (generation = none → field 8 4 + field 12 4 ≤ region.heap_size) ∧
    ∀ g ∈ generation, ∀ n ∈ d.overflow_name_gen config target i g,
      ∃ s ∈ w.names n, field 12 4 ≤ (w.segments s).len

instance (d : Direction) (target : Target) (region : ShmRegion) (i : ℕ)
    (config : SlotBusConfig) (w : World) :
    Decidable (BodyFound d target region i config w) :=
  inferInstanceAs
    (Decidable (_ ≠ _ → (_ = _ → _ ≤ _) ∧ ∀ g ∈ _, ∀ n ∈ _, ∃ s ∈ w.names n,
      _ ≤ (w.segments s).len))

/-- What one direction of a slot holds can be read: the metadata is in the heap and can be decoded,
and the body is found. -/
structure Legible (d : Direction) (codec : Codec α) (target : Target) (region : ShmRegion) (i : ℕ)
    (config : SlotBusConfig) (w : World) : Prop where
  in_heap : pointer_field d i w.mem 0 4 + pointer_field d i w.mem 4 2 ≤ region.heap_size
  decodes : ∃ v, codec.from_bytes
    (read w.mem (region.heap_offset + pointer_field d i w.mem 0 4) (pointer_field d i w.mem 4 2)) =
      .ok v
  body : BodyFound d target region i config w

/-- Only the pointer fields, the heap and the named regions matter. -/
theorem Legible.congr (h : Legible d codec target region i config w)
    (hfields : AgreeOn (pointer_fields d i) w.mem w'.mem)
    (hheap : AgreeOn (heap region) w.mem w'.mem) (hnames : w'.names = w.names)
    (hsegments : w'.segments = w.segments) :
    Legible d codec target region i config w' := by
  have hfield : ∀ {k n}, k + n ≤ 17 → pointer_field d i w'.mem k n = pointer_field d i w.mem k n :=
    fun hk =>
    (load_congr (hfields.mono (span_subset (by omega) (by omega)))).symm
  refine ⟨?_, ?_, ?_⟩
  · rw [hfield (by omega), hfield (by omega)]
    exact h.in_heap
  · have hread := hheap.read (a := region.heap_offset + pointer_field d i w.mem 0 4)
      (n := pointer_field d i w.mem 4 2) (span_subset (by omega) (by have := h.in_heap; omega))
    rw [hfield (by omega), hfield (by omega), ← hread]
    exact h.decodes
  · unfold BodyFound
    simp only [hfield (k := 12) (n := 4) (by omega), hfield (k := 16) (n := 1) (by omega),
      hfield (k := 8) (n := 4) (by omega), hnames, hsegments]
    exact h.body

/-- An overflow region that can be opened and is long enough. -/
theorem read_overflow_ok {n : String} {len s : ℕ} (hs : w.names n = some s)
    (hlen : len ≤ (w.segments s).len) {result : Except SlotBusError (List UInt8)}
    (hrun : Runs (machine target) t (ShmRegion.read_overflow n len).run w result w') :
    ∃ bytes, result = .ok bytes := by
  rcases (read_overflow_runs hrun).2 with ⟨s', -, -, hresult⟩ | ⟨hshort, -⟩
  · exact ⟨_, hresult⟩
  · exact absurd (hshort s hs) (Nat.not_lt_of_le hlen)

/-- Reading a body that is where the record says. -/
theorem read_body_ok (v : α) (body_len marker body_offset : ℕ)
    (hoffset : body_offset = load w.mem (slot_address i + (d.fields + 8)) 4)
    (hinline : body_len ≠ 0 → overflow_generation (UInt8.ofNat marker) = none →
      body_offset + body_len ≤ region.heap_size)
    (hoverflow : body_len ≠ 0 → ∀ g ∈ overflow_generation (UInt8.ofNat marker),
      ∀ n ∈ d.overflow_name_gen config target i g, ∃ s ∈ w.names n, body_len ≤ (w.segments s).len)
    {result : Except SlotBusError (α × List UInt8)}
    (hrun : Runs (machine target) t (if body_len = 0 then pure (v, []) else
        match overflow_generation (UInt8.ofNat marker) with
        | none => do
            let body_offset ← read_field i (d.fields + 8) 4
            let body ← region.heap_read_checked body_offset body_len
            pure (v, body)
        | some generation => do
            let name ← or_panic (d.overflow_name_gen config target i generation)
            let body ← ShmRegion.read_overflow name body_len
            pure (v, body) : Fallible (α × List UInt8)).run w result w') : ∃ x, result = .ok x := by
  by_cases hzero : body_len = 0
  · rw [if_pos hzero] at hrun
    exact ⟨_, (Runs.done_iff.mp hrun).1⟩
  rw [if_neg hzero] at hrun
  cases hgen : overflow_generation (UInt8.ofNat marker) with
  | none =>
      rw [hgen] at hrun
      simp only [runs_read_field, ← hoffset] at hrun
      rw [runs_heap_read (hinline hzero hgen)] at hrun
      exact ⟨_, (Runs.done_iff.mp hrun).1⟩
  | some g =>
      rw [hgen] at hrun
      cases hname : d.overflow_name_gen config target i g with
      | none =>
          -- making up the name panics
          simp only [hname] at hrun
          obtain ⟨c, x, u, hx, hk⟩ := Runs.act_iff.mp hrun
          exact Empty.elim x
      | some n =>
          simp only [hname, or_panic, pure_bind] at hrun
          obtain ⟨s, hs, hlen⟩ := hoverflow hzero g hgen n hname
          rcases runs_bind_except hrun with ⟨bytes, u, -, hdone⟩ | ⟨e, hread, -⟩
          · exact ⟨_, (Runs.done_iff.mp hdone).1⟩
          · obtain ⟨bytes, hbytes⟩ := read_overflow_ok hs hlen hread
            cases hbytes

/-- The metadata and the body of a legible record. -/
theorem read_payload_ok_of_legible {result : Except SlotBusError (α × List UInt8)}
    (hrun : Runs (machine target) t (read_payload d codec target region i config).run w result w')
    (h : Legible d codec target region i config w) : ∃ v, result = .ok v := by
  obtain ⟨hheap, ⟨v, hv⟩, hbody⟩ := h
  unfold pointer_field at hheap hv
  simp only [Nat.add_zero] at hheap hv
  unfold read_payload at hrun
  rw [runs_read_field, runs_read_field] at hrun
  simp only [World.saw_mem] at hrun
  rw [runs_heap_read hheap] at hrun
  simp only [World.saw_mem, hv, Except.mapError, from_except, pure_bind] at hrun
  rw [runs_read_field, runs_read_field] at hrun
  refine read_body_ok v _ _ _ rfl ?_ ?_ hrun
  · simp only [World.saw_mem]
    exact fun hpos => (hbody hpos).1
  · simp only [World.saw_mem, World.saw_names, World.saw_segments]
    exact fun hpos => (hbody hpos).2

/-- **A request that is legible can be read.** -/
theorem read_request_ok_of_legible {codec : Codec RequestMeta}
    {result : Except SlotBusError (String × UInt8 × RequestMeta × List UInt8)}
    (hrun : Runs (machine target) t (read_request codec target region i config).run w result w')
    (h : Legible .request codec target region i config w) : ∃ v, result = .ok v := by
  unfold read_request at hrun
  obtain ⟨id, u, hid, hrest⟩ := runs_bind_lift hrun
  have hdone := (runs_of_effect (a := .read (slot_address i + 4) 36) fun _ => rfl).mp hid
  obtain ⟨-, rfl⟩ := Runs.done_iff.mp hdone
  rw [runs_read_field] at hrest
  rcases runs_bind_except hrest with ⟨v, u, -, hpure⟩ | ⟨e, hpayload, -⟩
  · exact ⟨_, (Runs.done_iff.mp hpure).1⟩
  · obtain ⟨v, hv⟩ := read_payload_ok_of_legible hpayload (h.congr (.refl _ _) (.refl _ _) rfl rfl)
    cases hv

/-- **A response that is legible can be read.** -/
theorem read_response_ok_of_legible {codec : Codec ResponseMeta}
    {result : Except SlotBusError (UInt16 × ResponseMeta × List UInt8)}
    (hrun : Runs (machine target) t (read_response codec target region i config).run w result w')
    (h : Legible .response codec target region i config w) : ∃ v, result = .ok v := by
  unfold read_response at hrun
  rw [runs_read_field] at hrun
  rcases runs_bind_except hrun with ⟨v, u, -, hpure⟩ | ⟨e, hpayload, -⟩
  · exact ⟨_, (Runs.done_iff.mp hpure).1⟩
  · obtain ⟨v, hv⟩ := read_payload_ok_of_legible hpayload (h.congr (.refl _ _) (.refl _ _) rfl rfl)
    cases hv

end Reading

/-! ### Writing -/

/-- The operating system: it refuses to create regions as it likes, or only if the name is taken. -/
def host (target : Target) : (refuses : Bool) → Machine bus Thread World Choice
  | true => machine target
  | false => calm target

theorem host_exec {refuses : Bool} {a : Action} {c : Choice} {r : Answer a}
    (h : (host target refuses).exec t a c w = some (r, w')) :
    (machine target).exec t a c w = some (r, w') := by
  cases refuses with
  | true => exact h
  | false => exact calm_exec h

namespace SlotHalf

/-- A generation whose name, if it can be made up, is free. -/
def FreeName (H : SlotHalf) (w : World) : Prop :=
  ∃ g ≤ MAX_OVERFLOW_GENERATION, ∀ n, H.name g = some n → w.names n = none

theorem FreeName.congr {H : SlotHalf} (h : H.FreeName w) (hnames : w'.names = w.names) :
    H.FreeName w' := by
  obtain ⟨g, hg, hfree⟩ := h
  exact ⟨g, hg, fun n hn => by rw [hnames, hfree n hn]⟩

/-- There is room for the payload: its metadata fits, and if the body needs an overflow region, the
operating system does not refuse to create one and there is a name for it. -/
structure Accepts (H : SlotHalf) (refuses : Bool) (meta_bytes body : List UInt8) (w : World) :
    Prop where
  meta_fits : meta_bytes.length ≤ H.capacity
  named : H.Spills meta_bytes body → refuses = false ∧ H.FreeName w

variable {H : SlotHalf} {refuses : Bool} {meta_bytes body : List UInt8}

theorem Accepts.congr (h : H.Accepts refuses meta_bytes body w) (hnames : w'.names = w.names) :
    H.Accepts refuses meta_bytes body w' := by
  refine ⟨h.meta_fits, fun hspills => ?_⟩
  obtain ⟨hcalm, hfree⟩ := h.named hspills
  exact ⟨hcalm, hfree.congr hnames⟩

/-- A plain write leaves the names alone, whatever the operating system does about regions. -/
theorem host_runs_write {β : Type} {x : ℕ} {bytes : List UInt8} {rest : Unit → Fallible β}
    {result : Except SlotBusError β}
    (h : Runs (host target refuses) t ((liftM (write_bytes x bytes) : Fallible Unit) >>=
      rest).run w result w') :
    ∃ u, u.names = w.names ∧ Runs (host target refuses) t (rest ()).run u result w' := by
  have hact : Runs (host target refuses) t (.act (.write x bytes) fun r =>
      (rest r).run) w result w' := h
  obtain ⟨c, r, u, hx, hk⟩ := Runs.act_iff.mp hact
  obtain ⟨v, hv, rfl⟩ := exec_iff.mp (host_exec hx)
  obtain ⟨rfl, rfl⟩ := Prod.mk.inj (Option.some.inj hv)
  refine ⟨_, ?_, hk⟩
  rfl

/-- With a free name the search for a generation does not fail. -/
theorem create_overflow_ok_of_freeName (hfree : H.FreeName w) {data : List UInt8}
    {result : Except SlotBusError (OverflowRegion × UInt8)}
    (h : Runs (calm target) t (ShmRegion.create_overflow_fresh target H.name data).run
      w result w') :
    ∃ x, result = .ok x := by
  obtain ⟨g, hg, hnone⟩ := hfree
  rcases create_overflow_from_calm h with ⟨-, -, htaken⟩ | ⟨u, r, k, n, -,
    -, -, -, -, -, hresult, -⟩
  · obtain ⟨n, hn, hused⟩ := htaken g (Nat.zero_le g) (by omega)
    exact absurd (hnone n hn) hused
  · exact ⟨_, hresult⟩

/-- **A payload for which there is room is placed.** -/
theorem write_payload_ok_of_accepts (hslot : H.slot < H.region.num_slots)
    (h : H.Accepts refuses meta_bytes body w) {result : Except SlotBusError (Option OverflowRegion)}
    (hrun : Runs (host H.target refuses) t
          (write_payload H.direction H.target H.region H.slot meta_bytes body H.config).run
            w result w') :
    ∃ o, result = .ok o := by
  cases result with
  | ok o => exact ⟨o, rfl⟩
  | error e =>
      exfalso
      rcases write_payload_error hslot (hrun.mono host_exec) with ⟨hlarge, -⟩ | ⟨hspills, -⟩
      · exact absurd h.meta_fits (Nat.not_le_of_lt hlarge)
      obtain ⟨rfl, hfree⟩ := h.named hspills
      have hroom : arena_body_offset (H.direction.half (H.region.slot_arenas H.slot)).1
        (H.direction.half (H.region.slot_arenas H.slot)).2 meta_bytes.length body.length = none :=
          hspills.no_room
      rw [write_payload_of_fits hslot h.meta_fits] at hrun
      obtain ⟨u₁, hu₁, hrun⟩ := host_runs_write hrun
      obtain ⟨u₂, hu₂, hrun⟩ := host_runs_write hrun
      obtain ⟨u₃, hu₃, hrun⟩ := host_runs_write hrun
      unfold write_body at hrun
      simp only [if_neg hspills.body_ne_nil, hroom] at hrun
      rcases runs_bind_except hrun with ⟨x, v, -, hfields⟩ | ⟨e', hcreate, -⟩
      · cases write_body_fields_runs (hfields.mono host_exec)
      · have hfree₃ : H.FreeName u₃ := hfree.congr ((hu₃.trans hu₂).trans hu₁)
        obtain ⟨x, hx⟩ := create_overflow_ok_of_freeName hfree₃ hcreate
        cases hx

end SlotHalf

/-- **A response for which there is room is written.** -/
theorem write_response_ok_of_accepts {region : ShmRegion} {config : SlotBusConfig}
    {i : ℕ} {refuses : Bool} {status : UInt16} {meta_bytes body : List UInt8}
    (hi : i < region.num_slots)
    (h : SlotHalf.Accepts ⟨.response, target, region, config, i⟩ refuses meta_bytes body w)
    {result : Except SlotBusError (Option OverflowRegion)} (hrun : Runs (host target refuses) t
          (write_response target region i status meta_bytes body config).run w result w') : ∃ o,
            result = .ok o := by
  unfold write_response ensure at hrun
  rw [if_pos hi, pure_bind] at hrun
  obtain ⟨u, hu, hrun⟩ := SlotHalf.host_runs_write hrun
  rcases runs_bind_except hrun with ⟨o, v, -, hstore⟩ | ⟨e, hpayload, -⟩
  · have hdone := runs_store.mp (hstore.mono host_exec)
    exact ⟨o, (Runs.done_iff.mp hdone).1⟩
  · obtain ⟨o, ho⟩ :=
      SlotHalf.write_payload_ok_of_accepts (H := ⟨.response, target, region, config, i⟩) hi
      (h.congr hu) hpayload
    cases ho

end SlotBus
