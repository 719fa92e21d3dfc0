import SlotBus.Conformance
import SlotBus.Foundation.Typestate

/-!
# A bus that has just been set up

The hub lays out the control region with `init_control`, and the workers take the layout from its
header with `validate_control`.

* `SetUp.sound`, `SetUp.faithful` — both handles agree on the slot table, and on a heap of less than
  4 GiB;
* `SetUp.fresh` — every slot is free;
* `Reaches` — the configurations that runs reach from there; `Reaches.wellBehaved` — they follow the
  protocol.
-/

namespace SlotBus

open ByteMemory AtomicProgram

/-! ### The header -/

/-- The bytes of a freshly initialized mapping. -/
theorem init_control_bytes {raw region : ShmRegion} {config : SlotBusConfig} {old mem : Memory}
    (h : raw.init_control config old = .ok (region, mem)) :
    region.heap_offset + region.heap_size ≤ raw.len ∧
      mem = write (write (write (write (write (write (write old 0 (List.replicate raw.len 0))
        0 (encodeLE 4 SHM_MAGIC)) 4 (encodeLE 4 SHM_VERSION)) 8 (encodeLE 4 region.num_slots))
        12 (encodeLE 4 region.heap_offset)) 16 (encodeLE 4 region.heap_size))
          20 (encodeLE 4 0) := by
  by_cases hneeded : (compute_layout config.num_slots config.region_size).1 +
      (compute_layout config.num_slots config.region_size).2 > raw.len
  · simp only [ShmRegion.init_control, if_pos hneeded] at h
    cases h
  · simp only [ShmRegion.init_control, if_neg hneeded] at h
    obtain ⟨rfl, rfl⟩ := Prod.mk.inj (Except.ok.inj h)
    exact ⟨Nat.le_of_not_lt hneeded, rfl⟩

/-- The fields of the header, as `validate_control` reads them. -/
theorem init_control_header {raw region : ShmRegion} {config : SlotBusConfig} {old mem : Memory}
    (h : raw.init_control config old = .ok (region, mem)) :
    load mem 0 4 = SHM_MAGIC ∧ load mem 4 4 = SHM_VERSION ∧
      load mem 8 4 = region.num_slots % 2 ^ 32 ∧
      load mem 12 4 = region.heap_offset % 2 ^ 32 ∧ load mem 16 4 = region.heap_size % 2 ^ 32 := by
  obtain ⟨-, rfl⟩ := init_control_bytes h
  have hbeside : ∀ {m : Memory} {a b v : ℕ}, a + 4 ≤ b ∨ b + 4 ≤ a →
      load (write m a (encodeLE 4 v)) b 4 = load m b 4 := fun hab =>
    load_write_disjoint (by simpa using hab)
  refine ⟨?_, ?_, ?_, ?_, ?_⟩
  · rw [hbeside (by omega), hbeside (by omega), hbeside (by omega),
      hbeside (by omega), hbeside (by omega),
      load_write_same]
    rfl
  · rw [hbeside (by omega), hbeside (by omega), hbeside (by omega),
      hbeside (by omega), load_write_same]
    rfl
  · rw [hbeside (by omega), hbeside (by omega), hbeside (by omega), load_write_same]
    norm_num
  · rw [hbeside (by omega), hbeside (by omega), load_write_same]
    norm_num
  · rw [hbeside (by omega), load_write_same]
    norm_num

/-- Behind the header a freshly initialized mapping is zero. -/
theorem init_control_zero {raw region : ShmRegion} {config : SlotBusConfig} {old mem : Memory}
    (h : raw.init_control config old = .ok (region, mem)) {i : ℕ} (hi : i < region.num_slots) :
    slot_status mem i = SLOT_FREE := by
  have htable := slot_address_heap (init_control_table h) hi
  obtain ⟨hlen, rfl⟩ := init_control_bytes h
  have haddress : 64 ≤ slot_address i := Nat.le_add_right _ _
  have hbeside : ∀ {m : Memory} {a v : ℕ}, a ≤ 20 →
      load (write m a (encodeLE 4 v)) (slot_address i) 4 = load m (slot_address i) 4 := fun ha =>
    load_write_disjoint (.inl (by rw [encodeLE_length]; omega))
  rw [slot_status, hbeside le_rfl, hbeside (by omega), hbeside (by omega), hbeside (by omega),
    hbeside (by omega), hbeside (by omega), load, read_write_replicate (Nat.zero_le _) (by omega)]
  rfl

/-- What `validate_control` takes from a header. -/
theorem validate_control_layout {raw region : ShmRegion} {mem : Memory}
    (h : raw.validate_control mem = .ok region) :
    region.num_slots = load mem 8 4 ∧ region.heap_offset = load mem 12 4 ∧
      region.heap_size = load mem 16 4 := by
  simp only [ShmRegion.validate_control] at h
  split at h
  · cases h
  split at h
  · cases h
  split at h
  · cases h
  · obtain rfl := Except.ok.inj h
    exact ⟨rfl, rfl, rfl⟩

/-- A header that `init_control` has written is accepted, and describes the same layout. -/
theorem validate_control_of_init {raw region other : ShmRegion}
    {config : SlotBusConfig} {old mem : Memory}
    (h : raw.init_control config old = .ok (region, mem)) (hoffset : region.heap_offset < 2 ^ 32)
    (hheap : region.heap_size < 2 ^ 32) (hlen : region.heap_offset + region.heap_size ≤ other.len) :
    other.validate_control mem = .ok { other with
      num_slots := region.num_slots, heap_offset := region.heap_offset, heap_size :=
        region.heap_size } := by
  obtain ⟨h1, h2, h3, h4, h5⟩ := init_control_header h
  have htable := init_control_table h
  simp only [ShmRegion.TableBelowHeap, SHM_HEADER_SIZE, SLOT_META_SIZE] at htable
  rw [Nat.mod_eq_of_lt (by omega)] at h3
  rw [Nat.mod_eq_of_lt hoffset] at h4
  rw [Nat.mod_eq_of_lt hheap] at h5
  simp only [ShmRegion.validate_control, h1, h2, h3, h4, h5]
  rw [if_neg (by simp), if_neg (by simp), if_neg (by omega)]

/-! ### The bus -/

namespace Deployment

/-- The hub has initialized the control region, the workers have validated it, and the offset of the
heap fits into the header. -/
structure SetUp (D : Deployment) (mem : Memory) : Prop where
  created : ∃ raw old, ShmRegion.init_control raw D.config old = .ok (D.hub_region, mem)
  opened : ∃ raw, ShmRegion.validate_control raw mem = .ok D.worker_region
  offset_fits : D.hub_region.heap_offset < 2 ^ 32

variable {D : Deployment} {mem : Memory}

theorem SetUp.num_slots_eq (h : D.SetUp mem) : D.num_slots = D.config.num_slots := by
  obtain ⟨raw, old, hinit⟩ := h.created
  exact (init_control_layout hinit).1

/-- The workers see the slot table where the hub has put it. -/
theorem SetUp.worker_table (h : D.SetUp mem) : D.worker_region.num_slots = D.num_slots ∧
    D.worker_region.heap_offset = D.hub_region.heap_offset := by
  obtain ⟨raw, old, hinit⟩ := h.created
  obtain ⟨raw', hvalidate⟩ := h.opened
  obtain ⟨hslots, hoffset, -⟩ := validate_control_layout hvalidate
  obtain ⟨-, -, hslots', hoffset', -⟩ := init_control_header hinit
  have hfits := h.offset_fits
  have htable := init_control_table hinit
  simp only [ShmRegion.TableBelowHeap, SHM_HEADER_SIZE, SLOT_META_SIZE] at htable
  constructor
  · rw [hslots, hslots', Nat.mod_eq_of_lt (by omega)]
  · rw [hoffset, hoffset', Nat.mod_eq_of_lt hfits]

theorem SetUp.sound (h : D.SetUp mem) : D.Sound := by
  obtain ⟨raw, old, hinit⟩ := h.created
  obtain ⟨hslots, hoffset⟩ := h.worker_table
  refine ⟨init_control_table hinit, ?_, hslots⟩
  rw [ShmRegion.TableBelowHeap, hslots, hoffset]
  exact init_control_table hinit

theorem SetUp.faithful (h : D.SetUp mem) (hheap : D.hub_region.heap_size < 2 ^ 32) :
    D.Faithful := by
  obtain ⟨raw, old, hinit⟩ := h.created
  obtain ⟨raw', hvalidate⟩ := h.opened
  refine ⟨h.worker_table.2, ?_, hheap⟩
  rw [(validate_control_layout hvalidate).2.2, (init_control_header hinit).2.2.2.2,
    Nat.mod_eq_of_lt hheap]

theorem SetUp.fresh (h : D.SetUp mem) (names : String → Option ℕ)
    (segments : ℕ → Segment) (next : ℕ) :
    D.Fresh (.start mem names segments next) := by
  obtain ⟨raw, old, hinit⟩ := h.created
  exact ⟨rfl, rfl, rfl, rfl, fun _ => rfl, fun _ => rfl, fun i hi => init_control_zero hinit hi⟩

/-- A run following the discipline reaches this configuration from a bus that has just been set
up. -/
def Reaches (D : Deployment) (discipline : Discipline bus Thread World Launch)
    (σ : Configuration bus Thread World) : Prop :=
  ∃ mem names segments next, D.SetUp mem ∧
    Reachable D.system discipline (Start (.start mem names segments next)) σ

variable {discipline : Discipline bus Thread World Launch} {σ : Configuration bus Thread World}

theorem Reaches.sound (h : D.Reaches discipline σ) : D.Sound := by
  obtain ⟨mem, names, segments, next, hsetup, -⟩ := h
  exact hsetup.sound

theorem Reaches.faithful (h : D.Reaches discipline σ) (hheap : D.hub_region.heap_size < 2 ^ 32) :
    D.Faithful := by
  obtain ⟨mem, names, segments, next, hsetup, -⟩ := h
  exact hsetup.faithful hheap

/-- **Every run of a bus that has been set up follows the protocol.** -/
theorem Reaches.wellBehaved (h : D.Reaches discipline σ)
    (hadmits : ∀ e u, discipline.launch e u → Admits u e) : (D.protocol h.sound).WellBehaved σ := by
  obtain ⟨mem, names, segments, next, hsetup, hreach⟩ := h
  exact reachable_wellBehaved _ hadmits (hsetup.fresh names segments next) hreach

theorem Reaches.step {σ' : Configuration bus Thread World} (h : D.Reaches discipline σ)
    (hstep : Step D.system discipline σ σ') : D.Reaches discipline σ' := by
  obtain ⟨mem, names, segments, next, hsetup, hreach⟩ := h
  exact ⟨mem, names, segments, next, hsetup, hreach.tail hstep⟩

/-- **Invariants of runs.**  What holds at the start and is kept by every action and every launch of
the discipline holds in every configuration that a run reaches. -/
theorem Reaches.induct {P : Configuration bus Thread World → Prop}
    (hstart : ∀ mem names segments next, D.SetUp mem → P (Start (.start mem names segments next)))
    (haction : ∀ τ t a rest c r w', D.Reaches discipline τ → P τ → τ.program t = .act a rest →
      discipline.action t a τ.state → (machine D.target).exec t a c τ.state = some (r, w') →
      P ⟨w', Function.update τ.program t (rest r)⟩)
    (hlaunch : ∀ τ e t p w', D.Reaches discipline τ → P τ → τ.program t = .done () →
      discipline.launch e τ.state → D.launch e τ.state = some (t, p, w') →
      P ⟨w', Function.update τ.program t p⟩)
    (h : D.Reaches discipline σ) : P σ := by
  obtain ⟨mem, names, segments, next, hsetup, hreach⟩ := h
  induction hreach with
  | refl => exact hstart mem names segments next hsetup
  | tail hτ hs ih =>
      have hτ' : D.Reaches discipline _ := ⟨mem, names, segments, next, hsetup, hτ⟩
      obtain ⟨t, a, rest, c, r, w', hp, ha, hx, rfl⟩ | ⟨e, t, p, w', he, hp, hx, rfl⟩ :=
        step_cases hs
      · exact haction _ t a rest c r w' hτ' ih hp ha hx
      · exact hlaunch _ e t p w' hτ' ih hp he hx

end Deployment

/-! ### Typestates of the threads -/

/-- The typestate of a thread with this history. -/
def after {Q : Type} (A : Typestate bus Q) (q : Q) : List Entry → Q
  | [] => q
  | e :: log => A.next (after A q log) e.action e.answer

/-- **Every thread keeps to a typestate to which the programs it is given keep.** -/
theorem Deployment.Reaches.keeps {D : Deployment} {discipline : Discipline bus Thread World Launch}
    {σ : Configuration bus Thread World} (h : D.Reaches discipline σ)
    {Q : Type} {A : Typestate bus Q} {q₀ : Q} {rest : Q → Prop} (hstart : rest q₀) {t : Thread}
    (hlaunch : ∀ e w p w', D.launch e w = some (t, p, w') → ∀ q, rest q →
      A.Keeps (fun _ => rest) q p) :
    A.Keeps (fun _ => rest) (after A q₀ (history t σ.state.log)) (σ.program t) := by
  refine h.induct
    (P := fun τ => A.Keeps (fun _ => rest) (after A q₀ (history t τ.state.log)) (τ.program t))
    (fun _ _ _ _ _ => hstart) (fun τ u a next c r w' _ ih hp _ hx => ?_)
    fun τ e u p w' _ ih hp _ hx => ?_
  · show A.Keeps (fun _ => rest) (after A q₀ (history t w'.log))
        (Function.update τ.program u (next r) t)
    rw [(exec_changes hx).log]
    by_cases hu : u = t
    · subst hu
      rw [hp] at ih
      rw [history_cons_self, Function.update_self]
      exact ih.2 r
    · rw [history_cons_of_ne hu, Function.update_of_ne (Ne.symm hu)]
      exact ih
  · obtain ⟨calls, replies, rfl⟩ := launch_eq hx
    show A.Keeps (fun _ => rest) (after A q₀ (history t τ.state.log))
        (Function.update τ.program u p t)
    by_cases hu : u = t
    · subst hu
      rw [hp] at ih
      rw [Function.update_self]
      exact hlaunch e _ p _ hx _ ih
    · rw [Function.update_of_ne (Ne.symm hu)]
      exact ih

/-- A thread that has been launched is known. -/
theorem Deployment.launch_knows {D : Deployment} {e : Launch} {t : Thread}
    {p : Program bus Unit} {w w' : World} (h : D.launch e w = some (t, p, w')) : w'.Knows t := by
  rcases launch_cases h with ⟨call, -, rfl, -, rfl⟩ | ⟨-, rfl, -, -⟩ | ⟨l, -, rfl, -, -⟩ |
    ⟨reply, inv, -, -, rfl, -, rfl⟩
  · show w.calls.length < (w.calls ++ [call]).length
    simp
  · trivial
  · trivial
  · show w.replies.length < (w.replies ++ [reply]).length
    simp

/-- The threads that write slots: they are launched only once. -/
def Thread.Writes : Thread → Prop
  | .dispatch _ | .respond _ => True
  | .watcher | .receive _ => False

/-- A thread that writes slots is new when it is launched, with the program of a dispatch call or of
a reply. -/
theorem Deployment.launch_writer {D : Deployment} {e : Launch} {t : Thread}
    {p : Program bus Unit} {w w' : World} (h : D.launch e w = some (t, p, w')) (ht : t.Writes) :
    ¬ w.Knows t ∧ ((∃ k call, t = .dispatch k ∧ p = D.dispatch_program k call) ∨
      ∃ c inv reply, t = .respond c ∧ p = D.respond_program inv reply) := by
  rcases launch_cases h with ⟨call, -, rfl, rfl, -⟩ | ⟨-, rfl, -, -⟩ | ⟨l, -, rfl, -, -⟩ |
    ⟨reply, inv, -, -, rfl, rfl, -⟩
  · exact ⟨lt_irrefl _, .inl ⟨_, call, rfl, rfl⟩⟩
  · exact ht.elim
  · exact ht.elim
  · exact ⟨lt_irrefl _, .inr ⟨_, inv, reply, rfl, rfl⟩⟩

/-- **A thread that is launched only once** keeps to a typestate to which its program keeps. -/
theorem Deployment.Reaches.keeps_once {D : Deployment}
    {discipline : Discipline bus Thread World Launch} {σ : Configuration bus Thread World}
    (h : D.Reaches discipline σ) {Q : Type} {A : Typestate bus Q} {q₀ : Q} (rest : Q → Prop)
    (hstart : rest q₀) {t : Thread} (hlaunch : ∀ e w p w', D.launch e w = some (t, p, w') →
          ¬ w.Knows t ∧ A.Keeps (fun _ => rest) q₀ p) :
    A.Keeps (fun _ => rest) (after A q₀ (history t σ.state.log)) (σ.program t) := by
  suffices hall : (¬ σ.state.Knows t → history t σ.state.log = [] ∧ σ.program t = .done ()) ∧
      A.Keeps (fun _ => rest) (after A q₀ (history t σ.state.log)) (σ.program t) from hall.2
  refine h.induct
    (P := fun τ => (¬ τ.state.Knows t → history t τ.state.log = [] ∧ τ.program t = .done ()) ∧
        A.Keeps (fun _ => rest) (after A q₀ (history t τ.state.log)) (τ.program t))
    (fun _ _ _ _ _ => ⟨fun _ => ⟨rfl, rfl⟩, hstart⟩) (fun τ u a next c r w' _ ih hp _ hx => ?_)
    fun τ e u p w' _ ih hp _ hx => ?_
  · have hc := exec_changes hx
    obtain ⟨hunknown, hkeeps⟩ := ih
    show (¬ w'.Knows t → history t w'.log = [] ∧
        Function.update τ.program u (next r) t = .done ()) ∧
      A.Keeps (fun _ => rest) (after A q₀ (history t w'.log))
        (Function.update τ.program u (next r) t)
    rw [hc.log]
    by_cases hu : u = t
    · subst hu
      have hknown : τ.state.Knows u := by
        by_contra hno
        cases hp.symm.trans (hunknown hno).2
      rw [hp] at hkeeps
      rw [history_cons_self, Function.update_self]
      exact ⟨fun hno => absurd (hknown.mono (by rw [hc.calls]) (by rw [hc.replies])) hno,
        hkeeps.2 r⟩
    · rw [history_cons_of_ne hu, Function.update_of_ne (Ne.symm hu)]
      exact ⟨fun hno => hunknown fun hk =>
        hno (hk.mono (by rw [hc.calls]) (by rw [hc.replies])), hkeeps⟩
  · obtain ⟨hunknown, hkeeps⟩ := ih
    have hknows := launch_knows hx
    show (¬ w'.Knows t → history t w'.log = [] ∧ Function.update τ.program u p t = .done ()) ∧
      A.Keeps (fun _ => rest) (after A q₀ (history t w'.log)) (Function.update τ.program u p t)
    by_cases hu : u = t
    · subst hu
      obtain ⟨hno, hp'⟩ := hlaunch e τ.state p w' hx
      obtain ⟨calls, replies, rfl⟩ := launch_eq hx
      rw [Function.update_self, (hunknown hno).1]
      exact ⟨fun hno' => absurd hknows hno', hp'⟩
    · obtain ⟨calls, replies, rfl⟩ := launch_eq hx
      rw [Function.update_of_ne (Ne.symm hu)]
      exact ⟨fun hno => hunknown fun hk => hno (hk.mono (by simp) (by simp)), hkeeps⟩

/-! ### A small bus -/

theorem small_bus_setUp (request_codec : Codec RequestMeta) (response_codec : Codec ResponseMeta) :
    (small_bus request_codec response_codec).SetUp small_memory := by
  exact ⟨⟨_, _, small_region_laid_out⟩,
    ⟨small_mapping, validate_control_of_init small_region_laid_out (by decide)
      (by decide) (by decide)⟩,
    show small_region.heap_offset < 2 ^ 32 from by decide⟩

/-- The small bus when nothing has happened. -/
def small_start : World := .start small_memory (fun _ => none) (fun _ => ⟨0, fun _ => 0, false⟩) 0

/-- A run of the small bus. -/
theorem small_bus_reaches {request_codec : Codec RequestMeta} {response_codec : Codec ResponseMeta}
    {discipline : Discipline bus Thread World Launch} [∀ t a w, Decidable (discipline.action t a w)]
    [∀ e w, Decidable (discipline.launch e w)] {ms : List (Move Thread Choice Launch)}
    {σ : Configuration bus Thread World}
    (h : (small_bus request_codec response_codec).system.play discipline ms
    (Start small_start) = some σ) :
    (small_bus request_codec response_codec).Reaches discipline σ :=
  ⟨_, _, _, _, small_bus_setUp _ _, reachable_of_play h⟩

/-- The small bus with serializers that accept every value. -/
abbrev small_total_bus : Deployment :=
  small_bus (fixed_codec small_request [0, 0, 0, 0, 0]) (fixed_codec small_response [0, 0])

/-- A thread performs its next actions, and none of them fails. -/
def small_steps (t : Thread) (n : ℕ) : List (Move Thread Choice Launch) :=
  List.replicate n (.run t ⟨false, ""⟩)

/-- The request of a small dispatch call. -/
def small_call (req_id : String) (body : List UInt8) : DispatchCall :=
  ⟨req_id, "GET", small_request, body⟩

/-- The answer of handler invocation `n`. -/
def small_reply (n : ℕ) (body : List UInt8) : Reply := ⟨n, 200, body, "", []⟩

/-- A body that does not fit into an arena of the small bus. -/
def large_body (b : UInt8) : List UInt8 := List.replicate 40 b

end SlotBus
