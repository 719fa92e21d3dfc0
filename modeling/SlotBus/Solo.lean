import SlotBus.Generations
import SlotBus.Identity

/-!
# Functions that run alone

What the functions of the hub and of the workers do to the world when nobody interferes, one lemma
for each of them and for each of its outcomes.

* `runs_of_effect` — the steps that do not depend on the scheduler;
* `Fills`, `Leaves` — what placing a payload, and giving up, can change;
* `write_request_ok`, `write_request_error`, `write_response_ok` — the outcomes of the writers;
* `dispatch_runs` — the outcomes of a dispatch call.
-/

namespace SlotBus

open ByteMemory AtomicProgram AtomicProgram.Program

/-! ### Steps that do not depend on the scheduler -/

variable {target : Target} {t : Thread} {w w' : World} {α : Type}

/-- An action whose effect is always the same is always the next step of a run. -/
theorem runs_of_effect {a : Action} {r : Answer a} {u : World}
    {k : Answer a → Program bus α} {v : α} (h : ∀ c, effect target c w a = some (r, u)) :
    Runs (machine target) t (.act a k) w v w' ↔
      Runs (machine target) t (k r) { u with log := ⟨t, a, r⟩ :: u.log } v w' := by
  constructor
  · intro hrun
    obtain ⟨c, r', w₁, hx, hk⟩ := Runs.act_iff.mp hrun
    obtain ⟨u', hu, rfl⟩ := exec_iff.mp hx
    rw [h c] at hu
    obtain ⟨rfl, rfl⟩ := Prod.mk.inj (Option.some.inj hu)
    exact hk
  · intro hk
    exact .act (exec_iff.mpr ⟨u, h ⟨false, ""⟩, rfl⟩) hk

/-- A status store is always the next step of a run. -/
theorem runs_store {i v : ℕ} {rest : Unit → Program bus α} {x : α} :
    Runs (machine target) t (store i v >>= rest) w x w' ↔
      Runs (machine target) t (rest ())
        { w.set_status i v with log := ⟨t, .store i v, ()⟩ :: w.log } x w' :=
  runs_of_effect (a := .store i v) (k := rest) (u := w.set_status i v) fun _ => rfl

/-- The two outcomes of a compare-exchange. -/
theorem compare_exchange_runs {i expected new : ℕ} {b : Bool}
    (h : Runs (machine target) t (compare_exchange i expected new) w b w') :
    (b = true ∧ slot_status w.mem i = expected ∧ ∃ log,
      w' = { w.set_status i new with log := log }) ∨
      (b = false ∧ slot_status w.mem i ≠ expected ∧ ∃ log, w' = { w with log := log }) := by
  obtain ⟨c, b', u, hx, hk⟩ := Runs.act_iff.mp h
  obtain ⟨rfl, rfl⟩ := Runs.done_iff.mp hk
  obtain ⟨u', hu, rfl⟩ := exec_iff.mp hx
  simp only [effect] at hu
  split at hu <;> obtain ⟨rfl, rfl⟩ := Prod.mk.inj (Option.some.inj hu)
  · rename_i heq
    exact .inl ⟨rfl, heq, _, rfl⟩
  · rename_i hne
    exact .inr ⟨rfl, hne, _, rfl⟩

/-! ### Reserving a slot -/

/-- The slot the scan of `claim_free_slot` finds when it runs alone. -/
def first_free (region : ShmRegion) (mem : Memory) : Option ℕ :=
  (List.range region.num_slots).find? fun i => slot_status mem i = SLOT_FREE

/-- The world after a slot has been reserved. -/
def World.reserve (w : World) : Option ℕ → World
  | none => w
  | some i => w.set_status i SLOT_WRITING

theorem claim_first_runs {slots : List ℕ} {v : Option ℕ}
    (h : Runs (machine target) t (claim_first slots) w v w') :
    v = slots.find? (fun i => slot_status w.mem i = SLOT_FREE) ∧ ∃ log,
      w' = { w.reserve v with log := log } := by
  induction slots generalizing w with
  | nil =>
      obtain ⟨rfl, rfl⟩ := Runs.done_iff.mp h
      exact ⟨rfl, _, rfl⟩
  | cons i rest ih =>
      obtain ⟨b, u, hcas, hk⟩ := Runs.bind_iff.mp h
      rcases compare_exchange_runs hcas with ⟨rfl, hfree, log, rfl⟩ | ⟨rfl, htaken, log, rfl⟩
      · obtain ⟨rfl, rfl⟩ := Runs.done_iff.mp hk
        rw [List.find?_cons_of_pos (by simpa using hfree)]
        exact ⟨rfl, _, rfl⟩
      · obtain ⟨hv, log, hw'⟩ := ih hk
        rw [List.find?_cons_of_neg (by simpa using htaken)]
        refine ⟨hv, log, hw'.trans ?_⟩
        cases v <;> rfl

theorem claim_free_slot_runs {region : ShmRegion} {v : Option ℕ}
    (h : Runs (machine target) t (claim_free_slot region) w v w') :
    v = first_free region w.mem ∧ ∃ log, w' = { w.reserve v with log := log } :=
  claim_first_runs h

theorem claim_first_exists (target : Target) (t : Thread) (slots : List ℕ) (w : World) :
    ∃ v w', Runs (machine target) t (claim_first slots) w v w' := by
  induction slots generalizing w with
  | nil => exact ⟨none, w, .done _ _⟩
  | cons i rest ih =>
      by_cases hfree : slot_status w.mem i = SLOT_FREE
      · have heffect : ∀ c, effect target c w (.compare_exchange i SLOT_FREE SLOT_WRITING) =
          some (true, w.set_status i SLOT_WRITING) := fun c => if_pos hfree
        exact ⟨some i, _, (runs_of_effect heffect).mpr (.done _ _)⟩
      · have heffect :
            ∀ c, effect target c w (.compare_exchange i SLOT_FREE SLOT_WRITING) = some (false, w) :=
          fun c => if_neg hfree
        obtain ⟨v, w', hrest⟩ :=
          ih { w with log := ⟨t, .compare_exchange i SLOT_FREE SLOT_WRITING, false⟩ :: w.log }
        exact ⟨v, w', (runs_of_effect heffect).mpr hrest⟩

/-- The slot the scan finds is free. -/
theorem first_free_spec {region : ShmRegion} {mem : Memory} {i : ℕ}
    (h : first_free region mem = some i) :
    i < region.num_slots ∧ slot_status mem i = SLOT_FREE :=
  ⟨List.mem_range.mp (List.mem_of_find?_eq_some h), by simpa using List.find?_some h⟩

section Fallible

variable {β : Type} {result : Except SlotBusError β}

/-- A step of a program that may fail cannot itself fail where it is lifted. -/
theorem runs_bind_lift {M : Machine bus Thread World Choice} {α : Type} {q : Program bus α}
    {rest : α → Fallible β} (h : Runs M t ((liftM q : Fallible α) >>= rest).run w result w') :
    ∃ v u, Runs M t q w v u ∧ Runs M t (rest v).run u result w' := by
  rcases runs_bind_except h with ⟨v, u, hq, hrest⟩ | ⟨e, hq, -⟩
  · exact ⟨v, u, runs_lift hq, hrest⟩
  · obtain ⟨v, u, -, hdone⟩ := Runs.bind_iff.mp hq
    cases (Runs.done_iff.mp hdone).1

/-- A plain write is always the next step of a run. -/
theorem runs_write {x : ℕ} {bytes : List UInt8} {rest : Unit → Fallible β} :
    Runs (machine target) t ((liftM (write_bytes x bytes) : Fallible Unit) >>=
      rest).run w result w' ↔
      Runs (machine target) t (rest ()).run
        { w with mem := write w.mem x bytes, log := ⟨t, .write x bytes, ()⟩ :: w.log } result w' :=
  runs_of_effect (a := .write x bytes) (k := fun r => (rest r).run)
    (u := { w with mem := write w.mem x bytes })
    fun _ => rfl

/-- So is the removal of a handle. -/
theorem runs_overflow_remove {side : Side} {i : ℕ} {rest : Unit → Fallible β} :
    Runs (machine target) t ((liftM (overflow_remove side i) : Fallible Unit) >>=
      rest).run w result w' ↔
      Runs (machine target) t (rest ()).run
        { (w.drop_option (w.overflow_regions side i)).set_overflow side i none with
          log := ⟨t, .overflow_remove side i, ()⟩ ::
            ((w.drop_option (w.overflow_regions side i)).set_overflow side i none).log }
              result w' :=
  runs_of_effect (a := .overflow_remove side i) (k := fun r => (rest r).run)
    (u := (w.drop_option (w.overflow_regions side i)).set_overflow side i none) fun _ => rfl

/-- The world after a plain read. -/
def World.saw (w : World) (t : Thread) (a n : ℕ) : World :=
  { w with log := ⟨t, .read a n, read w.mem a n⟩ :: w.log }

@[simp] theorem World.saw_mem (w : World) (t : Thread) (a n : ℕ) : (w.saw t a n).mem = w.mem := rfl

@[simp] theorem World.saw_names (w : World) (t : Thread) (a n : ℕ) :
    (w.saw t a n).names = w.names := rfl

@[simp] theorem World.saw_segments (w : World) (t : Thread) (a n : ℕ) :
    (w.saw t a n).segments = w.segments := rfl

/-- The next step of a reader of the slot record. -/
theorem runs_read_field {i k n : ℕ} {rest : ℕ → Fallible β} :
    Runs (machine target) t ((liftM (read_field i k n) : Fallible ℕ) >>= rest).run w result w' ↔
      Runs (machine target) t (rest (load w.mem (slot_address i + k) n)).run
        (w.saw t (slot_address i + k) n) result w' :=
  runs_of_effect (a := .read (slot_address i + k) n)
    (k := fun r => (rest (decodeLE r)).run) fun _ => rfl

/-- The next step of a reader of the heap that stays in it. -/
theorem runs_heap_read {region : ShmRegion} {offset len : ℕ} {rest : List UInt8 → Fallible β}
    (h : offset + len ≤ region.heap_size) :
    Runs (machine target) t (region.heap_read_checked offset len >>= rest).run w result w' ↔
      Runs (machine target) t (rest (read w.mem (region.heap_offset + offset) len)).run
        (w.saw t (region.heap_offset + offset) len) result w' := by
  unfold ShmRegion.heap_read_checked
  rw [if_pos h]
  exact runs_of_effect (a := .read (region.heap_offset + offset) len)
    (k := fun r => (rest r).run) fun _ => rfl

theorem heap_write_checked_of_fits {region : ShmRegion} {offset : ℕ} {data : List UInt8}
    (h : offset + data.length ≤ region.heap_size) :
    region.heap_write_checked offset data =
      liftM (write_bytes (region.heap_offset + offset) data) :=
  if_pos h

end Fallible

/-! ### Placing a payload -/

/-- The actions that place a payload: plain writes to the addresses `A`, and work on named
regions. -/
def Action.fills (A : Set ℕ) : Action → Prop
  | .write x bytes => span x bytes.length ⊆ A
  | .shm_create _ _ | .shm_reclaim _ | .shm_write _ _ | .shm_drop _ | .panic => True
  | _ => False

theorem Action.on_regions.fills {a : Action} (h : a.on_regions) (A : Set ℕ) : a.fills A := by
  cases a <;> trivial

theorem Action.fills.mono {a : Action} {A B : Set ℕ} (h : a.fills A) (hs : A ⊆ B) : a.fills B := by
  cases a <;> first | exact h.trans hs | exact h

/-- Bytes of `A` have been written; the other bytes, the pending map and the handler invocations are
the same. -/
structure Fills (A : Set ℕ) (w w' : World) : Prop where
  outside : AgreeOn Aᶜ w.mem w'.mem
  pending : w'.pending = w.pending
  invocations : w'.invocations = w.invocations

theorem Fills.refl (A : Set ℕ) (w : World) : Fills A w w := ⟨.refl _ _, rfl, rfl⟩

theorem exec_fills {A : Set ℕ} {a : Action} {c : Choice} {r : Answer a} (ha : a.fills A)
    (h : (machine target).exec t a c w = some (r, w')) : Fills A w w' := by
  have hch := exec_changes h
  refine ⟨fun x hx => (hch.mem x ?_ ?_).symm, funext fun id => ?_, ?_⟩
  · cases a <;> first | exact Set.notMem_empty x | exact fun h => hx (ha h)
  · cases a <;> first | exact ha.elim | exact nofun
  · rcases hch.pending id with h | ⟨rfl, -⟩ | ⟨_, rfl, -⟩
    · exact h
    · exact ha.elim
    · exact ha.elim
  · rcases hch.invocations with h | ⟨_, _, _, rfl, -⟩
    · exact h
    · exact ha.elim

/-- A program of such actions. -/
theorem runs_fills {A : Set ℕ} {p : Program bus α} {v : α} (hp : p.Confined (Action.fills A))
    (h : Runs (machine target) t p w v w') : Fills A w w' := by
  refine Runs.keeps (I := fun u => Fills A w u) hp (fun ha hx hu => ?_) h (.refl A w)
  have hstep := exec_fills ha hx
  exact ⟨hu.outside.trans hstep.outside, hstep.pending.trans hu.pending,
    hstep.invocations.trans hu.invocations⟩

theorem create_overflow_confined (target : Target) (name_for : ℕ → Option String)
    (data : List UInt8) (A : Set ℕ) :
    (ShmRegion.create_overflow_fresh target name_for data).run.Confined (Action.fills A) :=
  create_overflow_from_confined (fun _ ha => ha.fills A) (fun _ => trivial) data _ _ _

/-- A checked write stays in the heap. -/
theorem heap_write_confined (region : ShmRegion) (offset : ℕ) (data : List UInt8) {A : Set ℕ}
    (hA : heap region ⊆ A) :
    (region.heap_write_checked offset data).run.Confined (Action.fills A) := by
  unfold ShmRegion.heap_write_checked
  split
  · rename_i hfits
    exact confined_lift ⟨(span_subset (Nat.le_add_right _ _) (by omega)).trans hA, fun _ => trivial⟩
  · trivial

theorem field_write_confined {d : Direction} {i k : ℕ} {bytes : List UInt8}
    (h : k + bytes.length ≤ 17) {A : Set ℕ} (hA : pointer_fields d i ⊆ A) :
    (liftM (write_bytes (slot_address i + (d.fields + k)) bytes) : Fallible Unit).run.Confined
    (Action.fills A) :=
  confined_lift ⟨(span_subset (by omega) (by omega)).trans hA, fun _ => trivial⟩

theorem write_body_fields_confined (d : Direction) (i offset len : ℕ) (marker : UInt8) {A : Set ℕ}
    (hA : pointer_fields d i ⊆ A) :
    (write_body_fields d i offset len marker).run.Confined (Action.fills A) := by
  refine confined_bind (field_write_confined (by rw [encodeLE_length]; omega) hA) fun _ => ?_
  refine confined_bind (field_write_confined (by rw [encodeLE_length]; omega) hA) fun _ => ?_
  exact field_write_confined (by simp) hA

/-- **A payload is placed in the pointer fields and in the heap**, whatever the offsets are. -/
theorem write_payload_confined (d : Direction) (target : Target) (region : ShmRegion) (i : ℕ)
    (meta_bytes body : List UInt8) (config : SlotBusConfig) :
    (write_payload d target region i meta_bytes body config).run.Confined
      (Action.fills (pointer_fields d i ∪ heap region)) := by
  have hfields : pointer_fields d i ⊆ pointer_fields d i ∪ heap region := Set.subset_union_left
  have hheap : heap region ⊆ pointer_fields d i ∪ heap region := Set.subset_union_right
  refine confined_bind ?_ fun _ => ?_
  · unfold ensure
    split <;> trivial
  refine confined_bind (heap_write_confined region _ _ hheap) fun _ => ?_
  refine confined_bind (field_write_confined (k := 0) (by simp) hfields) fun _ => ?_
  refine confined_bind (field_write_confined (by simp) hfields) fun _ => ?_
  unfold write_body
  simp only []
  split
  · exact confined_bind (write_body_fields_confined _ _ _ _ _ hfields) fun _ => trivial
  split
  · refine confined_bind (heap_write_confined region _ _ hheap) fun _ => ?_
    exact confined_bind (write_body_fields_confined _ _ _ _ _ hfields) fun _ => trivial
  · refine confined_bind (create_overflow_confined _ _ _ _) fun x => ?_
    exact confined_bind (write_body_fields_confined _ _ _ _ _ hfields) fun _ => trivial

/-! ### A payload that cannot be placed -/

/-- Recording where a body is cannot fail. -/
theorem write_body_fields_runs {d : Direction} {i offset len : ℕ} {marker : UInt8}
    {o : Option OverflowRegion} {result : Except SlotBusError (Option OverflowRegion)}
    (h : Runs (machine target) t (write_body_fields d i offset len marker >>=
      fun _ => pure o).run w result w') :
    result = .ok o := by
  unfold write_body_fields at h
  simp only [bind_assoc] at h
  rw [runs_write, runs_write, runs_write] at h
  exact (Runs.done_iff.mp h).1

/-- A failed attempt to create an overflow region had a name to try. -/
theorem create_overflow_error {name_for : ℕ → Option String} {data : List UInt8} {e : SlotBusError}
    (h : Runs (machine target) t (ShmRegion.create_overflow_fresh target name_for data).run w
    (.error e) w') :
    (name_for 0).isSome ∧ Reclaimed w w' := by
  constructor
  · cases hn : name_for 0 with
    | some n => rfl
    | none =>
        unfold ShmRegion.create_overflow_fresh ShmRegion.create_overflow_from at h
        rw [hn] at h
        obtain ⟨c, x, u, hx, hk⟩ := Runs.act_iff.mp h
        exact Empty.elim x
  · rcases create_overflow_runs h with ⟨hreclaimed, -⟩ | ⟨u, r, g, -, -, -, hok, -⟩
    · exact hreclaimed
    · cases hok

/-- The operating system may refuse the first create. -/
theorem create_overflow_refused (target : Target) (t : Thread) {name_for : ℕ → Option String}
    (hname : (name_for 0).isSome) (data : List UInt8) (w : World) :
    ∃ e w', Runs (machine target) t (ShmRegion.create_overflow_fresh target name_for data).run w
      (.error e) w' := by
  obtain ⟨n, hn⟩ := Option.isSome_iff_exists.mp hname
  unfold ShmRegion.create_overflow_fresh ShmRegion.create_overflow_from
  rw [hn]
  have hx : (machine target).exec t (.shm_create n (ShmRegion.overflow_size_for data.length))
      ⟨true, ""⟩ w =
      some ((Created.error "" : Created), _) := exec_iff.mpr ⟨w, rfl, rfl⟩
  exact ⟨_, _, .act hx (.done _ _)⟩

/-- The metadata fits into the half, and the body behind it needs an overflow region. -/
structure SlotHalf.Spills (H : SlotHalf) (meta_bytes body : List UInt8) : Prop where
  meta_fits : meta_bytes.length ≤ H.capacity
  body_ne_nil : body ≠ []
  no_room : arena_body_offset H.base H.capacity meta_bytes.length body.length = none
  named : (H.name 0).isSome

/-- A step has left `m` in the mapping, and neither registered nor created anything. -/
structure Leaves (m : Memory) (w w' : World) : Prop where
  mem : w'.mem = m
  pending : w'.pending = w.pending
  invocations : w'.invocations = w.invocations
  names : ∀ n s, w'.names n = some s → w.names n = some s

theorem Reclaimed.leaves (h : Reclaimed w w') (hfills : Fills ∅ w w') : Leaves w.mem w w' := by
  refine ⟨funext fun x => (hfills.outside x (Set.notMem_empty x)).symm,
    hfills.pending, hfills.invocations,
    fun n s hs => ?_⟩
  rcases h.names n with heq | ⟨_, -, -, hnone⟩
  · exact heq ▸ hs
  · rw [hnone] at hs
    cases hs

section Errors

variable {H : SlotHalf} {meta_bytes body : List UInt8} {e : SlotBusError}

/-- The only body that cannot be placed is one whose overflow region cannot be created. -/
theorem write_body_error {meta_len : ℕ} (hslot : H.slot < H.region.num_slots)
    (h : Runs (machine H.target) t
    (write_body H.direction H.target H.region H.slot meta_len body H.config).run w
      (.error e) w') :
    body ≠ [] ∧ arena_body_offset H.base H.capacity meta_len body.length = none ∧
      (H.name 0).isSome ∧
      Leaves w.mem w w' := by
  unfold write_body at h
  by_cases hbody : body = []
  · rw [if_pos hbody] at h
    cases write_body_fields_runs h
  refine ⟨hbody, ?_⟩
  rw [if_neg hbody] at h
  cases hoff : arena_body_offset (H.direction.half (H.region.slot_arenas H.slot)).1
    (H.direction.half (H.region.slot_arenas H.slot)).2 meta_len body.length with
  | some offset =>
      obtain ⟨hfit, hoffset⟩ := Tenancy.arena_body_offset_eq_some hoff
      have hhalf := SlotHalf.half_fits hslot
      have hle := Nat.mod_le (H.base + align8 meta_len) (2 ^ 32)
      simp only [hoff] at h
      rw [heap_write_checked_of_fits (by omega), runs_write] at h
      cases write_body_fields_runs h
  | none =>
      refine ⟨hoff, ?_⟩
      simp only [hoff] at h
      rcases runs_bind_except h with ⟨⟨ovf, marker⟩, u, hcreate, hrest⟩ | ⟨e', hcreate, -⟩
      · cases write_body_fields_runs hrest
      · obtain ⟨hname, hreclaimed⟩ := create_overflow_error hcreate
        exact ⟨hname, hreclaimed.leaves (runs_fills (create_overflow_confined _ _ _ _) hcreate)⟩

/-- Metadata that fits is written before anything can fail. -/
theorem write_payload_of_fits (hslot : H.slot < H.region.num_slots)
    (hmeta : meta_bytes.length ≤ H.capacity) :
    write_payload H.direction H.target H.region H.slot meta_bytes body H.config =
      (do
        write_bytes (H.region.heap_offset + H.base % 2 ^ 32) meta_bytes
        write_bytes (H.field 0) (encodeLE 4 (H.base % 2 ^ 32))
        write_bytes (H.field 4) (encodeLE 2 meta_bytes.length)
        write_body H.direction H.target H.region H.slot meta_bytes.length body H.config) := by
  have hhalf := SlotHalf.half_fits hslot
  have hle := Nat.mod_le H.base (2 ^ 32)
  have hfit : H.base % 2 ^ 32 + meta_bytes.length ≤ H.region.heap_size := by omega
  have hensure : meta_bytes.length ≤ (H.direction.half (H.region.slot_arenas H.slot)).2 := hmeta
  rw [← heap_write_checked_of_fits hfit, write_payload, ensure]
  simp only []
  rw [if_pos hensure]
  rfl

theorem write_payload_of_too_large (body : List UInt8) (hmeta : H.capacity < meta_bytes.length) :
    ∃ e, write_payload H.direction H.target H.region H.slot meta_bytes body H.config = throw e := by
  have hensure : ¬ meta_bytes.length ≤ (H.direction.half (H.region.slot_arenas H.slot)).2 :=
    Nat.not_le_of_lt hmeta
  unfold write_payload ensure
  simp only []
  rw [if_neg hensure]
  exact ⟨_, rfl⟩

/-- A payload cannot be placed if its metadata does not fit; then nothing is written.  Otherwise the
metadata has been written when the overflow region cannot be created. -/
theorem write_payload_error (hslot : H.slot < H.region.num_slots)
    (h : Runs (machine H.target) t
      (write_payload H.direction H.target H.region H.slot meta_bytes body H.config).run w
      (.error e) w') :
    (H.capacity < meta_bytes.length ∧ Leaves w.mem w w') ∨
      (H.Spills meta_bytes body ∧ Leaves (H.place_meta meta_bytes w.mem) w w') := by
  by_cases hmeta : meta_bytes.length ≤ H.capacity
  · right
    rw [write_payload_of_fits hslot hmeta, runs_write, runs_write, runs_write] at h
    obtain ⟨hbody, hroom, hname, hleft⟩ := write_body_error hslot h
    exact ⟨⟨hmeta, hbody, hroom, hname⟩, hleft.mem, hleft.pending, hleft.invocations, hleft.names⟩
  · left
    have hlarge := Nat.lt_of_not_le hmeta
    obtain ⟨e', he'⟩ := write_payload_of_too_large body hlarge
    rw [he'] at h
    obtain ⟨-, rfl⟩ := Runs.done_iff.mp h
    exact ⟨hlarge, rfl, rfl, rfl, fun _ _ h => h⟩

/-- A payload that needs an overflow region may be refused one. -/
theorem write_payload_refused (hslot : H.slot < H.region.num_slots)
    (h : H.Spills meta_bytes body) (w : World) :
    ∃ e w', Runs (machine H.target) t
      (write_payload H.direction H.target H.region H.slot meta_bytes body H.config).run w
      (.error e) w' := by
  rw [write_payload_of_fits hslot h.meta_fits]
  have hroom : arena_body_offset (H.direction.half (H.region.slot_arenas H.slot)).1
    (H.direction.half (H.region.slot_arenas H.slot)).2 meta_bytes.length body.length = none :=
      h.no_room
  simp only [runs_write]
  unfold write_body
  simp only [if_neg h.body_ne_nil, hroom]
  obtain ⟨e, w', hcreate⟩ := create_overflow_refused H.target t h.named body _
  exact ⟨e, w', Runs.bind_iff.mpr ⟨_, _, hcreate, .done _ _⟩⟩

/-! ### Requests and responses -/

/-- The part of `write_request` that cannot fail comes first. -/
theorem write_request_inner_eq {target : Target} {region : ShmRegion}
    {config : SlotBusConfig} {i : ℕ} (hi : i < region.num_slots)
    (req_id : String) (method : UInt8) :
    write_request_inner target region i req_id method meta_bytes body config =
      (do
        write_bytes (slot_address i + 4) (List.replicate 36 0)
        write_bytes (slot_address i + 4) (req_id.toUTF8.toList.take 36)
        write_bytes (slot_address i + 40) [method]
        let overflow_region ← write_payload .request target region i meta_bytes body config
        store i SLOT_READY
        pure overflow_region) := by
  rw [write_request_inner, ensure, if_pos hi]
  rfl

/-- **A failed `write_request`** gives the slot back, and leaves its header and possibly its
metadata behind. -/
theorem write_request_error {target : Target} {region : ShmRegion} {config : SlotBusConfig}
    {i : ℕ} {req_id : String} {method : UInt8} (hi : i < region.num_slots)
    (h : Runs (machine target) t
      (write_request target region i req_id method meta_bytes body config) w (.error e) w') :
    ∃ m, Leaves (write m (slot_address i) (encodeLE 4 SLOT_FREE)) w w' ∧
      (SlotHalf.capacity ⟨.request, target, region, config, i⟩ < meta_bytes.length ∧
          m = place_header i req_id method w.mem ∨
        SlotHalf.Spills ⟨.request, target, region, config, i⟩ meta_bytes body ∧
          m = SlotHalf.place_meta ⟨.request, target, region, config, i⟩ meta_bytes
            (place_header i req_id method w.mem)) := by
  obtain ⟨result, u, hinner, hrest⟩ := Runs.bind_iff.mp h
  cases result with
  | ok o => cases (Runs.done_iff.mp hrest).1
  | error e' =>
      have hfree : Runs (machine target) t (store i SLOT_FREE >>= fun _ => pure (Except.error e')) u
        (Except.error e : Except SlotBusError (Option OverflowRegion)) w' := hrest
      rw [runs_store] at hfree
      obtain ⟨-, rfl⟩ := Runs.done_iff.mp hfree
      rw [write_request_inner_eq hi, runs_write, runs_write, runs_write] at hinner
      rcases runs_bind_except hinner with ⟨o, v, -, hstore⟩ | ⟨e'', hpayload, -⟩
      · have hdone := runs_store.mp hstore
        cases (Runs.done_iff.mp hdone).1
      · rcases write_payload_error (H := ⟨.request, target, region, config, i⟩) hi hpayload with
          ⟨hlarge, hleft⟩ | ⟨hspills, hleft⟩
        · exact ⟨_, ⟨congrArg (write · _ _) hleft.mem, hleft.pending, hleft.invocations,
            hleft.names⟩, .inl ⟨hlarge, rfl⟩⟩
        · exact ⟨_, ⟨congrArg (write · _ _) hleft.mem, hleft.pending, hleft.invocations,
            hleft.names⟩, .inr ⟨hspills, rfl⟩⟩

theorem write_request_refused {target : Target} {region : ShmRegion}
    {config : SlotBusConfig} {i : ℕ} (hi : i < region.num_slots)
    (h : SlotHalf.Spills ⟨.request, target, region, config, i⟩ meta_bytes body) (req_id : String)
    (method : UInt8) (w : World) :
    ∃ e w', Runs (machine target) t
      (write_request target region i req_id method meta_bytes body config) w
      (.error e) w' := by
  have hinner : ∃ e u, Runs (machine target) t
      (write_request_inner target region i req_id method meta_bytes body config).run w
      (.error e) u := by
    rw [write_request_inner_eq hi]
    simp only [runs_write]
    obtain ⟨e, u, hpayload⟩ :=
      write_payload_refused (t := t) (H := ⟨.request, target, region, config, i⟩) hi h _
    exact ⟨e, u, Runs.bind_iff.mpr ⟨_, _, hpayload, .done _ _⟩⟩
  obtain ⟨e, u, hinner⟩ := hinner
  exact ⟨e, _, Runs.bind_iff.mpr ⟨_, _, hinner, runs_store.mpr (.done _ _)⟩⟩

end Errors

/-- A payload has been placed over the mapping `m`, and the slot has been published with the status
`v`. -/
structure Publishes (d : Direction) (region : ShmRegion) (i v : ℕ) (m : Memory) (w w' : World) :
    Prop where
  memory : ∃ placed, AgreeOn (pointer_fields d i ∪ heap region)ᶜ m placed ∧
    w'.mem = write placed (slot_address i) (encodeLE 4 v)
  pending : w'.pending = w.pending
  invocations : w'.invocations = w.invocations

section Written

variable {region : ShmRegion} {config : SlotBusConfig} {i : ℕ} {meta_bytes body : List UInt8}
  {o : Option OverflowRegion}

/-- **A successful `write_request`.** -/
theorem write_request_ok {req_id : String} {method : UInt8} (hi : i < region.num_slots)
    (h : Runs (machine target) t
    (write_request target region i req_id method meta_bytes body config) w (.ok o) w') :
    Publishes .request region i SLOT_READY (place_header i req_id method w.mem) w w' := by
  obtain ⟨result, u, hinner, hrest⟩ := Runs.bind_iff.mp h
  cases result with
  | error e =>
      have hdone := runs_store.mp hrest
      cases (Runs.done_iff.mp hdone).1
  | ok o' =>
      obtain ⟨-, rfl⟩ := Runs.done_iff.mp hrest
      rw [write_request_inner_eq hi, runs_write, runs_write, runs_write] at hinner
      obtain ⟨o', v, hpayload, hstore⟩ := runs_bind_ok hinner
      have hfills := runs_fills (write_payload_confined _ _ _ _ _ _ _) hpayload
      have hdone := runs_store.mp hstore
      obtain ⟨-, rfl⟩ := Runs.done_iff.mp hdone
      exact ⟨⟨v.mem, hfills.outside, rfl⟩, hfills.pending, hfills.invocations⟩

/-- **A successful `write_response`.** -/
theorem write_response_ok {status : UInt16}
    (h : Runs (machine target) t (write_response target region i status meta_bytes body config).run
      w (.ok o) w') :
    i < region.num_slots ∧
      Publishes .response region i SLOT_DONE (place_status i status w.mem) w w' := by
  unfold write_response ensure at h
  by_cases hi : i < region.num_slots
  · refine ⟨hi, ?_⟩
    rw [if_pos hi, pure_bind, runs_write] at h
    obtain ⟨o', v, hpayload, hstore⟩ := runs_bind_ok h
    have hfills := runs_fills (write_payload_confined _ _ _ _ _ _ _) hpayload
    have hdone := runs_store.mp hstore
    obtain ⟨-, rfl⟩ := Runs.done_iff.mp hdone
    exact ⟨⟨v.mem, hfills.outside, rfl⟩, hfills.pending, hfills.invocations⟩
  · rw [if_neg hi] at h
    cases (Runs.done_iff.mp h).1

end Written

/-! ### A dispatch call -/

namespace Deployment

variable (D : Deployment) {k : ℕ} {call : DispatchCall}

theorem drop_option_leaves (w : World) (side : Side) (i : ℕ) :
    Leaves w.mem w ((w.drop_option (w.overflow_regions side i)).set_overflow side i none) := by
  rw [World.set_overflow, drop_option_eq]
  refine ⟨rfl, rfl, rfl, fun n s hs => ?_⟩
  rcases drop_option_names w (w.overflow_regions side i) n with heq | ⟨hnone, -⟩
  · exact heq ▸ hs
  · have hs' : (w.drop_option (w.overflow_regions side i)).names n = some s := hs
    rw [hnone] at hs'
    cases hs'

/-- Dropping a stale handle leaves the mapping alone. -/
theorem overflow_remove_runs {side : Side} {i : ℕ} {v : Unit}
    (h : Runs (machine target) t (overflow_remove side i) w v w') : Leaves w.mem w w' := by
  have hdone := (runs_of_effect (a := .overflow_remove side i) fun _ => rfl).mp h
  obtain ⟨-, rfl⟩ := Runs.done_iff.mp hdone
  obtain ⟨hmem, hpending, hinvocations, hnames⟩ := drop_option_leaves w side i
  exact ⟨hmem, hpending, hinvocations, hnames⟩

/-- The calls of a dispatch that has published its request. -/
structure Registers (k : ℕ) (req_id : String) (w w' : World) : Prop where
  mem : w'.mem = w.mem
  pending : w'.pending = Function.update w.pending req_id (some k)
  invocations : w'.invocations = w.invocations

theorem register_runs {i : ℕ} {o : Option OverflowRegion} {result : Except SlotBusError Unit}
    (h : Runs (machine target) t (do
      match o with
      | some ovf => overflow_insert .hub i ovf
      | none => pure ()
      pending_insert call.req_id k
      signal .request : Fallible Unit).run w result w') : result = .ok () ∧
        Registers k call.req_id w w' := by
  have hlast : ∀ {u : World}, Runs (machine target) t (do
      pending_insert call.req_id k
      signal .request : Fallible Unit).run u result w' → result = .ok () ∧
        Registers k call.req_id u w' := by
    intro u h
    have hinsert := (runs_of_effect fun _ => rfl).mp h
    have hsignal := (runs_of_effect fun _ => rfl).mp hinsert
    obtain ⟨hresult, rfl⟩ := Runs.done_iff.mp hsignal
    exact ⟨hresult, rfl, rfl, rfl⟩
  cases o with
  | none => exact hlast h
  | some r =>
      have hkeep := (runs_of_effect fun _ => rfl).mp h
      obtain ⟨hresult, hmem, hpending, hinvocations⟩ := hlast hkeep
      have heq := drop_option_eq w (w.overflow_regions .hub i)
      refine ⟨hresult, hmem.trans ?_, hpending.trans ?_, hinvocations.trans ?_⟩
      all_goals
        rw [World.set_overflow, heq]

/-- **What a dispatch call does**: it finds no free slot, or cannot serialize the metadata, or gives
up because the request cannot be written, or publishes and registers the request. -/
theorem dispatch_runs {result : Except SlotBusError Unit}
    (h : Runs (machine D.target) t (D.dispatch k call).run w result w') :
    (first_free D.hub_region w.mem = none ∧ (∃ e, result = .error e) ∧ ∃ log,
      w' = { w with log := log }) ∨
      ∃ i, first_free D.hub_region w.mem = some i ∧
        ((∃ text log, D.request_codec.to_allocvec call.meta_ = .error text ∧
        (∃ e, result = .error e) ∧
            w' = { w.set_status i SLOT_WRITING with log := log }) ∨
          ∃ meta_bytes u written v, D.request_codec.to_allocvec call.meta_ = .ok meta_bytes ∧
            Leaves (w.set_status i SLOT_WRITING).mem w u ∧
            Runs (machine D.target) t
              (write_request D.target D.hub_region i call.req_id (method_to_u8 call.method)
                meta_bytes call.body D.config) u written v ∧
            ((∃ e, written = .error e ∧ result = .error e ∧ w' = v) ∨
              ∃ o, written = .ok o ∧ result = .ok () ∧ Registers k call.req_id v w')) := by
  unfold dispatch at h
  obtain ⟨v, u, hclaim, hrest⟩ := runs_bind_lift h
  obtain ⟨hv, log, rfl⟩ := claim_free_slot_runs hclaim
  cases v with
  | none =>
      obtain ⟨rfl, rfl⟩ := Runs.done_iff.mp hrest
      exact .inl ⟨hv.symm, ⟨_, rfl⟩, log, rfl⟩
  | some i =>
      refine .inr ⟨i, hv.symm, ?_⟩
      cases hmeta : D.request_codec.to_allocvec call.meta_ with
      | error text =>
          simp only [hmeta] at hrest
          obtain ⟨rfl, rfl⟩ := Runs.done_iff.mp hrest
          exact .inl ⟨text, log, rfl, ⟨_, rfl⟩, rfl⟩
      | ok meta_bytes =>
          simp only [hmeta] at hrest
          obtain ⟨_, u, hremove, hrest⟩ := runs_bind_lift hrest
          have hleaves := overflow_remove_runs hremove
          have hu : Leaves (w.set_status i SLOT_WRITING).mem w u :=
            ⟨hleaves.mem, hleaves.pending, hleaves.invocations, hleaves.names⟩
          rcases runs_bind_except hrest with ⟨o, v, hwrite, hregister⟩ | ⟨e', hwrite, he⟩
          · obtain ⟨hresult, hregisters⟩ := register_runs hregister
            exact .inr ⟨meta_bytes, u, _, v, rfl, hu, hwrite, .inr ⟨o, rfl, hresult, hregisters⟩⟩
          · exact .inr ⟨meta_bytes, u, _, w', rfl, hu, hwrite, .inl ⟨e', rfl, he, rfl⟩⟩

end Deployment

end SlotBus
