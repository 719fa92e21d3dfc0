import SlotBus.Retry
import SlotBus.Wakeup
import SlotBus.Foundation.Completion
import SlotBus.Foundation.HoareTriple

/-!
# No slot is ever stuck

Whatever the threads of a bus are in the middle of, the bus can still come to rest with all its
slots free: nobody waits for anybody in a circle, and no error path forgets a slot.

* `enables_of_ne_panic` — nothing but a panic can stop a thread;
* `Permits`, `Permits.launch` — what the programs consist of; `permits_goes` — none of it panics if
  the overflow names exist;
* `pass_clears` — one pass of a receive loop takes every request, one pass of the watcher every
  answer;
* `Reaches.after_receive`, `Reaches.after_responds`, `Reaches.after_watcher` — the three rounds that
  empty a bus;
* `bus_drains` — **from every reachable state all slots can become free**.
-/

namespace SlotBus

open ByteMemory AtomicProgram AtomicProgram.Program

/-! ### Programs that cannot stop in the middle -/

/-- Every action but a panic can happen: a wait that is not signalled times out. -/
theorem enables_of_ne_panic {target : Target} {a : Action} (ha : a ≠ .panic) :
    (machine target).Enables a := by
  intro t w
  have heffect : ∃ c, (effect target c w a).isSome := by
    cases a with
    | wait e => exact ⟨⟨true, ""⟩, rfl⟩
    | panic => exact absurd rfl ha
    | compare_exchange i expected new =>
        refine ⟨⟨false, ""⟩, ?_⟩
        simp only [effect]
        split <;> rfl
    | shm_create n size =>
        refine ⟨⟨true, ""⟩, ?_⟩
        simp only [effect]
        rfl
    | shm_reclaim n =>
        refine ⟨⟨false, ""⟩, ?_⟩
        simp only [effect]
        split
        · split <;> rfl
        · rfl
    | shm_open n =>
        refine ⟨⟨false, ""⟩, ?_⟩
        simp only [effect]
        split <;> rfl
    | _ => exact ⟨⟨false, ""⟩, rfl⟩
  obtain ⟨c, hc⟩ := heffect
  obtain ⟨x, hx⟩ := Option.isSome_iff_exists.mp hc
  exact ⟨c, x.1, { x.2 with log := ⟨t, a, x.1⟩ :: x.2.log }, by simp [machine, hx]⟩

/-- Every overflow region has a name, so no name is cut inside a character. -/
def Deployment.Nameable (D : Deployment) : Prop :=
  ∀ (d : Direction) (slot generation : ℕ),
    d.overflow_name_gen D.config D.target slot generation ≠ none

/-- Only macOS cuts names. -/
theorem Deployment.nameable_of_ne_macos {D : Deployment} (h : D.target ≠ .macos) : D.Nameable := by
  intro d slot generation
  have hsome : ∀ name : String, sanitize_os_name D.target name ≠ none := by
    intro name
    unfold sanitize_os_name
    cases htarget : D.target with
    | macos => exact absurd htarget h
    | windows => simp
    | linux => simp
  cases d with
  | request => exact hsome _
  | response => exact hsome _

section Unstuck

variable {target : Target} {region : ShmRegion} {config : SlotBusConfig} {i : ℕ}

/-- The action is not a panic. -/
def Action.Goes (a : Action) : Prop := a ≠ .panic

theorem Action.on_regions.goes {a : Action} (ha : a.on_regions) : a.Goes := by
  cases a <;> first | exact ha.elim | exact nofun

theorem write_payload_goes {d : Direction}
    (hnames : ∀ g, d.overflow_name_gen config target i g ≠ none) (meta_bytes body : List UInt8) :
    (write_payload d target region i meta_bytes body config).run.Confined Action.Goes := by
  have hheap : ∀ offset data, (region.heap_write_checked offset data).run.Confined Action.Goes := by
    intro offset data
    unfold ShmRegion.heap_write_checked
    split
    · exact confined_lift ⟨nofun, fun _ => trivial⟩
    · trivial
  have hwrite : ∀ x bytes, (liftM (write_bytes x bytes) : Fallible Unit).run.Confined Action.Goes :=
    fun x bytes => confined_lift ⟨nofun, fun _ => trivial⟩
  have hfields :
      ∀ offset len marker, (write_body_fields d i offset len marker).run.Confined Action.Goes := by
    intro offset len marker
    refine confined_bind (hwrite _ _) fun _ => ?_
    exact confined_bind (hwrite _ _) fun _ => hwrite _ _
  refine confined_bind ?_ fun _ => ?_
  · unfold ensure
    split <;> trivial
  refine confined_bind (hheap _ _) fun _ => ?_
  refine confined_bind (hwrite _ _) fun _ => ?_
  refine confined_bind (hwrite _ _) fun _ => ?_
  unfold write_body
  simp only []
  split
  · exact confined_bind (hfields _ _ _) fun _ => trivial
  split
  · refine confined_bind (hheap _ _) fun _ => ?_
    exact confined_bind (hfields _ _ _) fun _ => trivial
  · refine confined_bind ?_ fun x => ?_
    · refine create_overflow_from_confined (fun _ ha => ha.goes) (fun hno => ?_) body _ _ _
      obtain ⟨g, hg⟩ := hno
      exact absurd hg (hnames g)
    · exact confined_bind (hfields _ _ _) fun _ => trivial

theorem read_payload_goes {α : Type} {d : Direction}
    (hnames : ∀ g, d.overflow_name_gen config target i g ≠ none) (codec : Codec α) :
    (read_payload d codec target region i config).run.Confined Action.Goes := by
  have hfield : ∀ k n, (liftM (read_field i k n) : Fallible ℕ).run.Confined Action.Goes :=
    fun k n => confined_lift ⟨nofun, fun _ => trivial⟩
  have hheap : ∀ offset len, (region.heap_read_checked offset len).run.Confined Action.Goes := by
    intro offset len
    unfold ShmRegion.heap_read_checked
    split
    · exact ⟨nofun, fun _ => trivial⟩
    · trivial
  refine confined_bind (hfield _ _) fun meta_offset => ?_
  refine confined_bind (hfield _ _) fun meta_len => ?_
  refine confined_bind (hheap _ _) fun meta_bytes => ?_
  refine confined_bind ?_ fun m => ?_
  · cases codec.from_bytes meta_bytes <;> trivial
  refine confined_bind (hfield _ _) fun body_len => ?_
  refine confined_bind (hfield _ _) fun marker => ?_
  split
  · trivial
  split
  · refine confined_bind (hfield _ _) fun body_offset => ?_
    exact confined_bind (hheap _ _) fun body => trivial
  · rename_i generation _
    obtain ⟨name, hname⟩ := Option.ne_none_iff_exists'.mp (hnames generation)
    rw [hname]
    refine confined_bind (p := pure name) trivial fun name => ?_
    exact confined_bind (read_overflow_confined (fun _ => nofun) (fun _ _ => nofun) name _)
      fun body => trivial

end Unstuck

/-! ### What the programs consist of -/

/-- What the functions of hub and worker do themselves, beside placing and reading payloads: in the
mapping they write to the record of a slot. -/
def Action.Frames : Action → Prop
  | .write x bytes => ∃ i, span x bytes.length ⊆ span (slot_address i) SLOT_META_SIZE
  | .shm_create _ _ | .shm_reclaim _ | .shm_write _ _ | .shm_open _ | .shm_read
      _ _ | .shm_drop _ | .panic => False
  | _ => True

theorem Action.Frames.goes {a : Action} (ha : a.Frames) : a.Goes := by
  cases a <;> first | exact ha.elim | exact nofun

namespace Deployment

variable {D : Deployment}

/-- The actions include all that the programs of the bus do. -/
structure Permits (D : Deployment) (allowed : Action → Prop) : Prop where
  frames : ∀ a : Action, a.Frames → allowed a
  places : ∀ d i meta_bytes body,
    (write_payload d D.target (D.writer d) i meta_bytes body D.config).run.Confined allowed
  reads_request : ∀ i,
    (read_payload .request D.request_codec D.target D.worker_region i D.config).run.Confined allowed
  reads_response : ∀ i,
    (read_payload .response D.response_codec D.target D.hub_region i D.config).run.Confined allowed

/-- A pass does what its visits do. -/
theorem pass_confined {allowed : Action → Prop} {visit : ℕ → Program bus Unit}
    (hvisit : ∀ i, (visit i).Confined allowed) {side : Side} (hrunning : allowed (.running side))
    {e : NamedEvent} (hwait : allowed (.wait e)) (n : ℕ) :
    (do if ← running side then
          let _ ← wait e
          for_each visit (List.range n)
        else pure () : Program bus Unit).Confined allowed := by
  have hslots : ∀ slots, (for_each visit slots).Confined allowed := by
    intro slots
    induction slots with
    | nil => trivial
    | cons i rest ih => exact (hvisit i).bind fun _ => ih
  refine ⟨hrunning, fun (b : Bool) => ?_⟩
  cases b with
  | false => trivial
  | true => exact ⟨hwait, fun _ => hslots _⟩

section Permitted

variable {allowed : Action → Prop}

theorem Permits.receive_slot (h : D.Permits allowed) (l i : ℕ) :
    (D.receive_slot l i).Confined allowed := by
  refine ⟨h.frames _ trivial, fun (b : Bool) => ?_⟩
  cases b with
  | false => trivial
  | true =>
      refine Confined.bind
        (p := (read_request D.request_codec D.target D.worker_region i D.config).run) ?_
        fun result => ?_
      · refine confined_bind (confined_lift ⟨h.frames _ trivial, fun _ => trivial⟩) fun req_id => ?_
        refine confined_bind (confined_lift ⟨h.frames _ trivial, fun _ => trivial⟩) fun method => ?_
        exact confined_bind (h.reads_request i) fun x => trivial
      · cases result with
        | ok request => exact ⟨h.frames _ trivial, fun _ => trivial⟩
        | error e => exact ⟨h.frames _ trivial, fun _ => trivial⟩

theorem Permits.watch_slot (h : D.Permits allowed) (i : ℕ) : (D.watch_slot i).Confined allowed := by
  refine ⟨h.frames _ trivial, fun (status : ℕ) => ?_⟩
  show Program.Confined _ (if status ≠ SLOT_DONE then _ else _)
  split
  · trivial
  refine ⟨h.frames _ trivial, fun raw => ?_⟩
  refine Confined.bind (p := (read_response D.response_codec D.target D.hub_region i D.config).run)
    ?_ fun result => ?_
  · refine confined_bind (confined_lift ⟨h.frames _ trivial, fun _ => trivial⟩) fun status => ?_
    exact confined_bind (h.reads_response i) fun x => trivial
  refine ⟨h.frames _ trivial, fun (b : Bool) => ?_⟩
  cases b with
  | false => trivial
  | true =>
      refine ⟨h.frames _ trivial, fun _ => ?_⟩
      cases result with
      | error e => trivial
      | ok answer =>
          refine ⟨h.frames _ trivial, fun (found : Option ℕ) => ?_⟩
          cases found with
          | none => trivial
          | some tx => exact ⟨h.frames _ trivial, fun _ => trivial⟩

/-- A write to the record of a slot. -/
theorem Permits.record_write (h : D.Permits allowed) {i k : ℕ} {bytes : List UInt8}
    (hk : k + bytes.length ≤ SLOT_META_SIZE) :
    (liftM (write_bytes (slot_address i + k) bytes) : Fallible Unit).run.Confined allowed :=
  confined_lift ⟨h.frames _ ⟨i, span_subset (Nat.le_add_right _ _) (by omega)⟩, fun _ => trivial⟩

theorem Permits.write_request (h : D.Permits allowed) (i : ℕ) (req_id : String) (method : UInt8)
    (meta_bytes body : List UInt8) :
    (write_request D.target D.hub_region i req_id method meta_bytes body D.config).Confined
      allowed := by
  have hid : (req_id.toUTF8.toList.take 36).length ≤ 36 := List.length_take_le _ _
  refine Confined.bind
    (p := (write_request_inner D.target D.hub_region i req_id method meta_bytes body
      D.config).run) ?_ fun result => ?_
  · refine confined_bind ?_ fun _ => ?_
    · unfold ensure
      split <;> trivial
    refine confined_bind (h.record_write (by simp [SLOT_META_SIZE])) fun _ => ?_
    refine confined_bind (h.record_write (by simp only [SLOT_META_SIZE]; omega)) fun _ => ?_
    refine confined_bind (h.record_write (by simp [SLOT_META_SIZE])) fun _ => ?_
    refine confined_bind (h.places .request i _ _) fun overflow => ?_
    exact confined_bind (confined_lift ⟨h.frames _ trivial, fun _ => trivial⟩) fun _ => trivial
  · cases result with
    | ok overflow => trivial
    | error e => exact ⟨h.frames _ trivial, fun _ => trivial⟩

theorem Permits.dispatch_program (h : D.Permits allowed) (k : ℕ) (call : DispatchCall) :
    (D.dispatch_program k call).Confined allowed := by
  have hregister : (do
      pending_insert call.req_id k
      signal .request
      pure (.ok ()) : Program bus (Except SlotBusError Unit)).Confined allowed :=
    ⟨h.frames _ trivial, fun _ => ⟨h.frames _ trivial, fun _ => trivial⟩⟩
  have hclaim : ∀ slots, (claim_first slots).Confined allowed := by
    intro slots
    induction slots with
    | nil => trivial
    | cons i rest ih =>
        refine ⟨h.frames _ trivial, fun (b : Bool) => ?_⟩
        cases b with
        | true => trivial
        | false => exact ih
  refine Confined.bind (p := (D.dispatch k call).run) ?_ fun result =>
    ⟨h.frames _ trivial, fun _ => trivial⟩
  unfold dispatch
  refine confined_bind (confined_lift (hclaim _)) fun claimed => ?_
  cases claimed with
  | none => trivial
  | some i =>
      cases hmeta : D.request_codec.to_allocvec call.meta_ with
      | error x => simp only []; trivial
      | ok meta_bytes =>
          simp only []
          refine ⟨h.frames _ trivial, fun _ => ?_⟩
          refine confined_bind
            (p := ExceptT.mk (SlotBus.write_request D.target D.hub_region i call.req_id
              (method_to_u8 call.method) meta_bytes call.body D.config)) (h.write_request i _ _ _ _)
                fun overflow => ?_
          cases overflow with
          | none => exact hregister
          | some q => exact ⟨h.frames _ trivial, fun _ => hregister⟩

theorem Permits.respond_program (h : D.Permits allowed) (inv : Invocation) (reply : Reply) :
    (D.respond_program inv reply).Confined allowed := by
  have hwrite :
      ∀ meta_bytes,
      (write_response D.target D.worker_region inv.slot reply.status meta_bytes reply.body
          D.config).run.Confined allowed := by
    intro meta_bytes
    refine confined_bind ?_ fun _ => ?_
    · unfold ensure
      split <;> trivial
    refine confined_bind (h.record_write (by simp [SLOT_META_SIZE])) fun _ => ?_
    refine confined_bind (h.places .response inv.slot _ _) fun overflow => ?_
    exact confined_bind (confined_lift ⟨h.frames _ trivial, fun _ => trivial⟩) fun _ => trivial
  refine Confined.bind
    (p := (D.send_response inv.worker inv.slot reply.status reply.body reply.content_type
      reply.headers).run) ?_ fun result => ⟨h.frames _ trivial, fun _ => trivial⟩
  unfold send_response
  cases hmeta : D.response_codec.to_allocvec ⟨reply.content_type, reply.headers⟩ with
  | error x => simp only [hmeta]; trivial
  | ok meta_bytes =>
      simp only [hmeta]
      refine ⟨h.frames _ trivial, fun _ => ?_⟩
      refine confined_bind
        (p := attempt (write_response D.target D.worker_region inv.slot reply.status
          meta_bytes reply.body D.config)) (confined_lift (hwrite meta_bytes)) fun result => ?_
      cases result with
      | error x => exact ⟨h.frames _ trivial, fun _ => trivial⟩
      | ok overflow =>
          cases overflow with
          | none => exact ⟨h.frames _ trivial, fun _ => trivial⟩
          | some q => exact ⟨h.frames _ trivial, fun _ => ⟨h.frames _ trivial, fun _ => trivial⟩⟩

/-- **The programs that are launched do nothing else.** -/
theorem Permits.launch (h : D.Permits allowed) {e : Launch} {t : Thread}
    {p : Program bus Unit} {w w' : World} (hlaunch : D.launch e w = some (t, p, w')) :
    p.Confined allowed := by
  rcases launch_cases hlaunch with ⟨call, -, -, rfl, -⟩ | ⟨-, -, rfl, -⟩ | ⟨l, -, -, rfl, -⟩ |
    ⟨reply, inv, -, -, -, rfl, -⟩
  · exact h.dispatch_program _ call
  · exact pass_confined h.watch_slot (h.frames _ trivial) (h.frames _ trivial) _
  · exact pass_confined (h.receive_slot l) (h.frames _ trivial) (h.frames _ trivial) _
  · exact h.respond_program inv reply

end Permitted

/-- If the overflow names can be made up, none of it can panic. -/
theorem permits_goes (hnames : D.Nameable) : D.Permits Action.Goes where
  frames _ ha := ha.goes
  places d i _ _ := write_payload_goes (hnames d i) _ _
  reads_request i := read_payload_goes (hnames .request i) _
  reads_response i := read_payload_goes (hnames .response i) _

/-- What the threads of a bus still have to do, and that none of it can panic. -/
theorem Reaches.goes {discipline : Discipline bus Thread World Launch}
    {σ : Configuration bus Thread World} (hnames : D.Nameable) (h : D.Reaches discipline σ) :
    σ.active.Finite ∧ ∀ t, (σ.program t).Confined Action.Goes := by
  obtain ⟨mem, names, segments, next, hsetup, hreach⟩ := h
  induction hreach with
  | refl => exact ⟨Set.Finite.subset Set.finite_empty fun t ht => ht rfl, fun t => trivial⟩
  | tail _ hstep ih =>
      exact ⟨hstep.active_finite ih.1,
        hstep.confined (fun hx => (permits_goes hnames).launch hx) ih.2⟩

/-- **A run can always be completed**: every thread that is under way can be run to its end. -/
theorem Reaches.completes {discipline : Discipline bus Thread World Launch}
    {P : Launch → World → Prop} {σ : Configuration bus Thread World} (hnames : D.Nameable)
    (h : D.Reaches discipline σ) : ∃ σ', Reachable D.system (.launching P) σ σ' ∧ σ'.Quiet := by
  obtain ⟨hfinite, hgoes⟩ := h.goes hnames
  exact exists_all_done hfinite fun t => (hgoes t).mono fun a ha => enables_of_ne_panic ha

end Deployment

/-! ### What a thread that is over has done -/

/-- The phase of a thread, as a typestate. -/
def stage : Typestate bus Phase where
  allowed _ _ := True
  next q a r := Entry.advance ⟨.watcher, a, r⟩ q

theorem advance_any (t u : Thread) (a : Action) (r : Answer a) (q : Phase) :
    Entry.advance ⟨t, a, r⟩ q = Entry.advance ⟨u, a, r⟩ q := by
  cases a with
  | compare_exchange i expected new => cases r <;> rfl
  | pending_insert id tx => cases q <;> rfl
  | finish result =>
      cases result with
      | ok v => rfl
      | error e => cases e <;> first | rfl | (cases q <;> rfl)
  | _ => rfl

theorem after_stage (log : List Entry) : after stage .idle log = progress log := by
  induction log with
  | nil => rfl
  | cons e log ih =>
      obtain ⟨t, a, r⟩ := e
      show Entry.advance ⟨.watcher, a, r⟩ (after stage .idle log) =
          Entry.advance ⟨t, a, r⟩ (progress log)
      rw [ih]
      exact advance_any .watcher t a r (progress log)

/-- An action that leaves a thread where it is, before it has done anything. -/
def Action.Early (a : Action) : Prop := ∀ r : Answer a, Entry.advance ⟨.watcher, a, r⟩ .idle = .idle

theorem Action.fills.early {a : Action} {A : Set ℕ} (ha : a.fills A) : a.Early := by
  intro r
  cases a <;> first | exact ha.elim | rfl

/-- Until it publishes the slot, a `send_response` call has touched none; then it has. -/
theorem write_response_stage (target : Target) (region : ShmRegion) (i : ℕ) (status : UInt16)
    (meta_bytes body : List UInt8) (config : SlotBusConfig) :
    stage.Keeps (fun result q => match result with
      | .ok _ => q = .published i
      | .error _ =>
          q = .idle) .idle (write_response target region i status meta_bytes body config).run := by
  unfold write_response
  refine Typestate.Keeps.bind_except ?_
  unfold ensure
  split
  · refine Typestate.Keeps.bind_except (Typestate.Keeps.lift ⟨trivial, fun _ => ?_⟩)
    refine Typestate.Keeps.bind_except ?_
    refine Typestate.Keeps.of_confined
      (write_payload_confined .response target region i meta_bytes body config)
      (fun a ha => ⟨trivial, ha.early⟩) fun result => ?_
    cases result with
    | error e => rfl
    | ok overflow => exact ⟨trivial, fun _ => rfl⟩
  · rfl

namespace Deployment

variable {D : Deployment}

/-- A `send_response` call that is over has touched the slot, or failed to serialize. -/
theorem respond_program_stage (inv : Invocation) (reply : Reply) :
    stage.Keeps (fun _ q => q = .failed ∧
      (∃ e, D.response_codec.to_allocvec ⟨reply.content_type, reply.headers⟩ =
        .error e) ∨ q.slot = some inv.slot) .idle (D.respond_program inv reply) := by
  unfold respond_program send_response
  cases hmeta : D.response_codec.to_allocvec ⟨reply.content_type, reply.headers⟩ with
  | error x =>
      simp only [hmeta]
      exact ⟨trivial, fun _ => .inl ⟨rfl, x, rfl⟩⟩
  | ok meta_bytes =>
      simp only [hmeta]
      refine ⟨trivial, fun _ => ?_⟩
      refine Typestate.Keeps.bind ?_
      refine Typestate.Keeps.bind_except
        (p := attempt (write_response D.target D.worker_region inv.slot reply.status
          meta_bytes reply.body D.config)) (Typestate.Keeps.lift ?_)
      refine (write_response_stage _ _ _ _ _ _ _).mono fun result q hq => ?_
      cases result with
      | error e =>
          subst hq
          exact ⟨trivial, fun _ => ⟨trivial, fun _ => .inr (by cases e <;> rfl)⟩⟩
      | ok overflow =>
          subst hq
          cases overflow with
          | none => exact ⟨trivial, fun _ => ⟨trivial, fun _ => .inr rfl⟩⟩
          | some q => exact ⟨trivial, fun _ => ⟨trivial, fun _ => ⟨trivial, fun _ => .inr rfl⟩⟩⟩

end Deployment

/-! ### What a pass leaves behind -/

/-- The action gives no slot the status `v`. -/
def Action.Avoids (v : ℕ) : Action → Prop
  | .compare_exchange _ _ new => new < 2 ^ 32 ∧ new ≠ v
  | .store _ new => new < 2 ^ 32 ∧ new ≠ v
  | .write _ _ => False
  | _ => True

theorem Action.looks.avoids {a : Action} (ha : a.looks) (v : ℕ) : a.Avoids v := by
  cases a <;> first | exact ha.elim | trivial

section Passes

variable {target : Target} {t : Thread} {a : Action} {c : Choice} {w w' : World}
    {r : Answer a} {v i : ℕ}

theorem set_status_ne {x j : ℕ} (hx : x < 2 ^ 32 ∧ x ≠ v) (h : slot_status w.mem j ≠ v) :
    slot_status (w.set_status i x).mem j ≠ v := by
  by_cases hij : i = j
  · subst hij
    rw [slot_status_set_self hx.1]
    exact hx.2
  · rw [slot_status_set_of_ne hij]
    exact h

theorem exec_avoids (ha : a.Avoids v) (hx : (machine target).exec t a c w = some (r, w'))
    {j : ℕ} (h : slot_status w.mem j ≠ v) : slot_status w'.mem j ≠ v := by
  have hsame : a.written = ∅ → a.status_slot = none → slot_status w'.mem j ≠ v := by
    intro hwritten hslot
    rw [slot_status_congr (m := w.mem) fun x _ =>
      ((exec_changes hx).mem x (by rw [hwritten]; exact Set.notMem_empty x)
        fun k hk => by rw [hslot] at hk; cases hk).symm]
    exact h
  cases a with
  | compare_exchange k expected new =>
      obtain ⟨u, hu, rfl⟩ := exec_iff.mp hx
      simp only [effect] at hu
      split at hu <;> obtain ⟨rfl, rfl⟩ := Prod.mk.inj (Option.some.inj hu)
      · exact set_status_ne ha h
      · exact h
  | store k new =>
      obtain ⟨u, hu, rfl⟩ := exec_iff.mp hx
      obtain ⟨rfl, rfl⟩ := Prod.mk.inj (Option.some.inj hu)
      exact set_status_ne ha h
  | write x bytes => exact ha.elim
  | _ => exact hsame rfl rfl

/-- None of these slots has the status `v`. -/
def Cleared (v : ℕ) (slots : Set ℕ) (w : World) : Prop := ∀ j ∈ slots, slot_status w.mem j ≠ v

/-- What avoids the status keeps slots cleared of it. -/
theorem Cleared.keep {α : Type} {p : Program bus α} {slots : Set ℕ}
    (hp : p.Confined (Action.Avoids v)) :
    Triple (machine target) (Cleared v slots) p fun _ => Cleared v slots :=
  .of_confined hp fun _ _ _ _ _ _ ha hx hw j hj => exec_avoids ha hx (hw j hj)

/-- A slot from which a compare-exchange would have taken the status does not have it afterwards. -/
theorem Cleared.compare_exchange {new : ℕ} {slots : Set ℕ} (hnew : new < 2 ^ 32 ∧ new ≠ v)
    {b : Answer (.compare_exchange i v new)}
    (hx : (machine target).exec t (.compare_exchange i v new) c w = some (b, w'))
    (hw : Cleared v slots w) :
    Cleared v (insert i slots) w' := by
  obtain ⟨u, hu, rfl⟩ := exec_iff.mp hx
  simp only [effect] at hu
  split at hu <;> obtain ⟨rfl, rfl⟩ := Prod.mk.inj (Option.some.inj hu)
  · intro j hj
    by_cases hij : i = j
    · subst hij
      show slot_status (w.set_status i new).mem i ≠ v
      rw [slot_status_set_self hnew.1]
      exact hnew.2
    · exact set_status_ne hnew (hw j (hj.resolve_left (Ne.symm hij)))
  · rename_i hne
    intro j hj
    rcases hj with rfl | hj
    · exact hne
    · exact hw j hj

namespace Deployment

variable {D : Deployment}

theorem receive_slot_clears (l i : ℕ) (slots : Set ℕ) :
    Triple (machine D.target) (Cleared SLOT_READY slots) (D.receive_slot l i)
      fun _ => Cleared SLOT_READY (insert i slots) := by
  unfold receive_slot
  refine Triple.act (R := fun _ => Cleared SLOT_READY (insert i slots))
    (fun _ _ _ _ _ hw hx => Cleared.compare_exchange (by decide) hx hw) fun (b : Bool) =>
      Cleared.keep ?_
  cases b with
  | false => trivial
  | true =>
      refine Confined.bind
        (p := (read_request D.request_codec D.target D.worker_region i D.config).run)
        ((read_request_confined _).mono fun _ ha => ha.avoids _) fun result => ?_
      cases result with
      | ok request => exact ⟨trivial, fun _ => trivial⟩
      | error e =>
          exact ⟨show SLOT_FREE < 2 ^ 32 ∧ SLOT_FREE ≠ SLOT_READY from by decide, fun _ => trivial⟩

theorem watch_slot_clears (i : ℕ) (slots : Set ℕ) :
    Triple (machine D.target) (Cleared SLOT_DONE slots) (D.watch_slot i)
      fun _ => Cleared SLOT_DONE (insert i slots) := by
  unfold watch_slot
  refine Triple.act (R := fun (status : ℕ) w => slot_status w.mem i = status ∧
    Cleared SLOT_DONE slots w) ?_
    fun (status : ℕ) => ?_
  · intro t c s r s' hs hx
    obtain ⟨u, hu, rfl⟩ := exec_iff.mp hx
    obtain ⟨rfl, rfl⟩ := Prod.mk.inj (Option.some.inj hu)
    exact ⟨rfl, hs⟩
  show Triple _ _ (if status ≠ SLOT_DONE then _ else _) _
  split
  · rename_i hne
    refine Triple.done fun s hs j hj => ?_
    rcases hj with rfl | hj
    · rw [hs.1]
      exact hne
    · exact hs.2 j hj
  refine Triple.mono (P := Cleared SLOT_DONE slots) ?_ (fun _ hs => hs.2) fun _ _ h => h
  refine Triple.bind (R := fun _ => Cleared SLOT_DONE slots)
    (Cleared.keep ⟨trivial, fun _ => trivial⟩) fun id => ?_
  refine Triple.bind (R := fun _ => Cleared SLOT_DONE slots)
    (Cleared.keep ((read_response_confined _).mono fun _ ha => ha.avoids _)) fun result => ?_
  refine Triple.act (R := fun _ => Cleared SLOT_DONE (insert i slots))
    (fun _ _ _ _ _ hw hx => Cleared.compare_exchange (by decide) hx hw) fun (b : Bool) =>
      Cleared.keep ?_
  cases b with
  | false => trivial
  | true =>
      refine ⟨trivial, fun _ => ?_⟩
      cases result with
      | error e => trivial
      | ok answer =>
          refine ⟨trivial, fun (found : Option ℕ) => ?_⟩
          cases found with
          | none => trivial
          | some tx => exact ⟨trivial, fun _ => trivial⟩

theorem for_each_clears {visit : ℕ → Program bus Unit}
    (hvisit : ∀ i slots, Triple (machine target) (Cleared v slots) (visit i) fun _ =>
      Cleared v (insert i slots))
    (order : List ℕ) (slots : Set ℕ) :
    Triple (machine target) (Cleared v slots) (for_each visit order) fun _ =>
      Cleared v ({i | i ∈ order} ∪ slots) := by
  induction order generalizing slots with
  | nil => exact Triple.done fun s hs j hj => hs j (hj.resolve_left List.not_mem_nil)
  | cons i rest ih =>
      refine Triple.bind (hvisit i slots) fun _ =>
        (ih (insert i slots)).mono (fun _ h => h) fun _ s hs j hj => ?_
      refine hs j ?_
      rcases hj with hj | hj
      · rcases List.mem_cons.mp hj with rfl | hj
        · exact .inr (.inl rfl)
        · exact .inl hj
      · exact .inr (.inr hj)

/-- **A pass visits every slot**, unless the bus has been told to stop. -/
theorem pass_clears {visit : ℕ → Program bus Unit}
    (hvisit : ∀ i slots, Triple (machine target) (Cleared v slots) (visit i) fun _ =>
      Cleared v (insert i slots))
    (side : Side) (e : NamedEvent) (n : ℕ) :
    Triple (machine target) (fun w => w.is_running side = true)
      (do if ← running side then
            let _ ← wait e
            for_each visit (List.range n)
          else pure ()) fun _ => Cleared v {i | i < n} := by
  refine Triple.act (R := fun (b : Bool) _ => b = true) ?_ fun (b : Bool) => ?_
  · intro t c s r s' hs hx
    obtain ⟨u, hu, rfl⟩ := exec_iff.mp hx
    obtain ⟨rfl, rfl⟩ := Prod.mk.inj (Option.some.inj hu)
    exact hs
  cases b with
  | false => exact Triple.done fun _ hs => by cases hs
  | true =>
      refine Triple.act (R := fun _ => Cleared v ∅) (fun _ _ _ _ _ _ _ j hj => hj.elim) fun _ => ?_
      refine (for_each_clears hvisit (List.range n) ∅).mono (fun _ h => h) fun _ s hs j hj => ?_
      exact hs j (.inl (List.mem_range.mpr hj))

end Deployment

end Passes

/-! ### Runs of one thread -/

section Threads

variable {t : Thread}

/-- A `send_response` call changes only who owns a slot that is being handled: then it is answered
or free. -/
theorem owner_respond (a : Action) (r : Answer a) (log : List Entry) (c j : ℕ) :
    owner (⟨.respond c, a, r⟩ :: log) j = owner log j ∨
      owner (⟨.respond c, a, r⟩ :: log) j = .free ∨
      ∃ n k, owner (⟨.respond c, a, r⟩ :: log) j = .done n k c := by
  cases a with
  | store i v =>
      by_cases hj : j = i
      · subst hj
        cases ho : owner log j with
        | handling n k =>
            have hnew : owner (⟨.respond c, .store j v, r⟩ :: log) j = if v =
                SLOT_DONE then .done n k c else .free := by
              refine (Function.update_self _ _ _).trans ?_
              rw [ho]
            by_cases hv : v = SLOT_DONE
            · rw [if_pos hv] at hnew
              exact .inr (.inr ⟨n, k, hnew⟩)
            · rw [if_neg hv] at hnew
              exact .inr (.inl hnew)
        | _ =>
            left
            refine (Function.update_self _ _ _).trans ?_
            rw [ho]
      · exact .inl (Function.update_of_ne hj _ _)
  | _ => exact .inl rfl

/-- The watcher only gives slots back. -/
theorem owner_watcher (a : Action) (r : Answer a) (log : List Entry) (j : ℕ) :
    owner (⟨.watcher, a, r⟩ :: log) j = owner log j ∨
      owner (⟨.watcher, a, r⟩ :: log) j = .free := by
  cases a with
  | compare_exchange i expected new =>
      cases r with
      | false => exact .inl rfl
      | true =>
          by_cases hj : j = i
          · subst hj
            exact .inr (Function.update_self _ _ _)
          · exact .inl (Function.update_of_ne hj _ _)
  | _ => exact .inl rfl

/-- What every action of a thread keeps of the log, its runs keep. -/
theorem runs_log {target : Target} {α : Type} {p : Program bus α} {v : α} {w w' : World}
    {I : List Entry → Prop} (hstep : ∀ (a : Action) (r : Answer a) log, I log →
      I (⟨t, a, r⟩ :: log))
    (h : Runs (machine target) t p w v w') (hw : I w.log) : I w'.log := by
  induction h with
  | done v s => exact hw
  | act hx _ ih =>
      refine ih ?_
      rw [(exec_changes hx).log]
      exact hstep _ _ _ hw

theorem runs_replies {target : Target} {α : Type} {p : Program bus α} {v : α} {w w' : World}
    (h : Runs (machine target) t p w v w') : w'.replies = w.replies := by
  induction h with
  | done v s => rfl
  | act hx _ ih => exact ih.trans (exec_changes hx).replies

/-- A thread alone keeps to the typestate to which its program keeps. -/
theorem keeps_runs {target : Target} {Q : Type} {A : Typestate bus Q} {q₀ : Q}
    {α : Type} {p : Program bus α} {post : α → Q → Prop} {v : α} {w w' : World}
    (h : Runs (machine target) t p w v w')
    (hkeeps : A.Keeps post (after A q₀ (history t w.log)) p) :
    post v (after A q₀ (history t w'.log)) := by
  induction h with
  | done v s => exact hkeeps
  | act hx _ ih =>
      refine ih ?_
      rw [(exec_changes hx).log, history_cons_self]
      exact hkeeps.2 _

end Threads

namespace Deployment

variable {D : Deployment} {σ : Configuration bus Thread World}

/-- Nobody tells a bus to stop. -/
theorem Reaches.running {discipline : Discipline bus Thread World Launch}
    (h : D.Reaches discipline σ) (side : Side) :
    σ.state.is_running side = true := by
  refine h.induct (P := fun τ => τ.state.is_running side = true) ?_ ?_ ?_
  · intro mem names segments next _
    rfl
  · intro τ t a rest c r w' _ ih _ _ hx
    exact (congrFun (exec_changes hx).is_running side).trans ih
  · intro τ e t p w' _ ih _ _ hx
    obtain ⟨calls, replies, rfl⟩ := launch_eq hx
    exact ih

/-- What a bus may be asked to do. -/
abbrev Admitted : Launch → World → Prop := fun e w => Admits w e

/-- The owners of slots when no thread is under way. -/
theorem Reaches.quiet_owner (h : D.Reaches (.launching Admitted) σ) (hserializes : D.Serializes)
    (hquiet : σ.Quiet) (i : ℕ) : (∀ k, owner σ.state.log i ≠ .writing k) ∧ ∀ l k,
    owner σ.state.log i ≠ .reading l k := by
  have hwell := h.wellBehaved fun _ _ he => he
  have hledger := hwell.invariant.ledger
  constructor
  · intro k ho
    have hidle := hwell.idle (hquiet (.dispatch k))
    exact hidle hserializes i ((hledger.writing i k).mp ho)
  · intro l k ho
    have hidle := hwell.idle (hquiet (.receive l))
    refine hidle i ((hledger.reading i l).mp ?_)
    show (owner σ.state.log i).loop = some l
    rw [ho]
    rfl

theorem not_waiting_of_slot {p : Phase} (h : p.slot ≠ none) : ¬p.Waiting := by
  rintro (rfl | rfl)
  · exact h rfl
  · exact h rfl

/-- What a `send_response` call has done when it is over: it has touched a slot, or failed to
serialize. -/
def Over (D : Deployment) (reply : Reply) (p : Phase) : Prop :=
  p = .failed ∧ (∃ e, D.response_codec.to_allocvec ⟨reply.content_type, reply.headers⟩ = .error e) ∨
    p.slot ≠ none

theorem respond_program_over (inv : Invocation) (reply : Reply) :
    stage.Keeps (fun _ => D.Over reply) .idle (D.respond_program inv reply) := by
  refine (respond_program_stage inv reply).mono fun _ q hq => ?_
  rcases hq with hfailed | hslot
  · exact .inl hfailed
  · right
    rw [hslot]
    exact nofun

theorem Reaches.respond_over (h : D.Reaches (.launching Admitted) σ) {c : ℕ} {reply : Reply}
    (hc : σ.state.replies[c]? = some reply) (hdone : σ.program (.respond c) = .done ()) :
    D.Over reply (phase σ.state.log (.respond c)) := by
  suffices hall : ∀ (c : ℕ) reply, σ.state.replies[c]? = some reply →
      stage.Keeps (fun _ => D.Over reply) (phase σ.state.log (.respond c))
        (σ.program (.respond c)) by
    have hkeeps := hall c reply hc
    rw [hdone] at hkeeps
    exact hkeeps
  refine h.induct (P := fun τ => ∀ (c : ℕ) reply, τ.state.replies[c]? = some reply →
    stage.Keeps (fun _ => D.Over reply) (phase τ.state.log (.respond c)) (τ.program (.respond c)))
      ?_ ?_ ?_
  · intro mem names segments next _ c reply hc
    cases hc
  · intro τ t a rest c r w' _ ih hp _ hx d reply hd
    have hchanges := exec_changes hx
    show stage.Keeps _ (phase w'.log (.respond d))
        (Function.update τ.program t (rest r) (.respond d))
    rw [hchanges.log]
    have hkeeps := ih d reply (by rw [← hchanges.replies]; exact hd)
    by_cases ht : t = .respond d
    · subst ht
      rw [hp] at hkeeps
      rw [phase_cons_self, Function.update_self, advance_any _ .watcher]
      exact hkeeps.2 r
    · rw [phase_cons_of_ne ht, Function.update_of_ne (Ne.symm ht)]
      exact hkeeps
  · intro τ e t p w' hτ ih hp _ hx d reply hd
    have hI := (hτ.wellBehaved fun _ _ he => he).invariant
    show stage.Keeps _ (phase w'.log (.respond d)) (Function.update τ.program t p (.respond d))
    rcases launch_cases hx with ⟨call, -, rfl, -, rfl⟩ | ⟨-, rfl, -, rfl⟩ | ⟨l, -, rfl, -, rfl⟩ |
      ⟨new, inv, -, -, rfl, rfl, rfl⟩
    · exact ih d reply hd
    · exact ih d reply hd
    · exact ih d reply hd
    · have hlookup : (τ.state.replies ++ [new])[d]? = some reply := hd
      by_cases hlast : d = τ.state.replies.length
      · subst hlast
        rw [List.getElem?_append_right le_rfl, Nat.sub_self] at hlookup
        obtain rfl : new = reply := Option.some.inj hlookup
        have hidle : phase τ.state.log (.respond τ.state.replies.length) = .idle :=
          hI.phase_of_unknown (lt_irrefl _)
        rw [Function.update_self]
        show stage.Keeps _ (phase τ.state.log _) _
        rw [hidle]
        exact respond_program_over inv new
      · rw [Function.update_of_ne fun heq => hlast (Thread.respond.inj heq)]
        refine ih d reply ?_
        have hlength : d < (τ.state.replies ++ [new]).length :=
          (List.getElem?_eq_some_iff.mp hlookup).1
        rw [List.length_append, List.length_singleton] at hlength
        rwa [List.getElem?_append_left (by omega)] at hlookup

/-- What brings a bus to rest: no requests. -/
def Finishing (e : Launch) (w : World) : Prop := Admits w e ∧ ∀ call, e ≠ .dispatch call

/-- A launch, and the launched thread alone to its end. -/
theorem exists_launched (hnames : D.Nameable) (hquiet : σ.Quiet) {e : Launch}
    {t : Thread} {p : Program bus Unit} {w : World} (he : Finishing e σ.state)
    (hx : D.launch e σ.state = some (t, p, w)) : ∃ w', Runs (machine D.target) t p w () w' ∧
      Reachable D.system (.launching Finishing) σ ⟨w', σ.program⟩ := by
  obtain ⟨w', hrun⟩ := Machine.exists_end (M := D.system.toMachine)
    (((permits_goes hnames).launch hx).mono fun a ha => enables_of_ne_panic ha) t w
  exact ⟨w', hrun, reachable_of_launch he (hquiet t) hx hrun⟩

/-- A bus that comes to rest is still a bus. -/
theorem Reaches.finish {σ' : Configuration bus Thread World} (h : D.Reaches (.launching Admitted) σ)
    (hreach : Reachable D.system (.launching Finishing) σ σ') :
    D.Reaches (.launching Admitted) σ' := by
  obtain ⟨mem, names, segments, next, hsetup, hfirst⟩ := h
  have hrest : Reachable D.system (.launching Admitted) σ σ' :=
    hreach.mono (fun _ _ _ _ => trivial) fun _ _ => And.left
  exact ⟨mem, names, segments, next, hsetup, hfirst.trans hrest⟩

/-- The status words agree with the owners. -/
theorem Reaches.status (h : D.Reaches (.launching Admitted) σ) {i : ℕ} (hi : i < D.num_slots) :
    slot_status σ.state.mem i = (owner σ.state.log i).status :=
  (h.wellBehaved fun _ _ he => he).invariant.status i hi

/-- One pass of a receive loop leaves no request waiting. -/
theorem Reaches.after_receive (h : D.Reaches (.launching Admitted) σ) (hnames : D.Nameable)
    (hquiet : σ.Quiet) :
    ∃ σ', Reachable D.system (.launching Finishing) σ σ' ∧ σ'.Quiet ∧
      ∀ i < D.num_slots, ∀ k, owner σ'.state.log i ≠ .ready k := by
  have hadmits : Finishing (.receive 0) σ.state := ⟨trivial, nofun⟩
  obtain ⟨w', hrun, hreach⟩ := exists_launched hnames hquiet hadmits rfl
  refine ⟨_, hreach, hquiet, fun i hi k ho => ?_⟩
  have hcleared : Cleared SLOT_READY {i | i < D.worker_region.num_slots} w' :=
    pass_clears (receive_slot_clears 0) _ _ _ _ _ _ _ (h.running _) hrun
  refine hcleared i (show i < D.worker_region.num_slots from h.sound.num_slots_eq ▸ hi) ?_
  have hstatus : slot_status w'.mem i = (owner w'.log i).status := (h.finish hreach).status hi
  rw [hstatus, ho]
  rfl

/-- A serializable answer settles one slot, and leaves every other as it is, or free, or
answered. -/
theorem Reaches.after_respond (h : D.Reaches (.launching Admitted) σ)
    (hnames : D.Nameable) (hquiet : σ.Quiet) {content_type : String}
    {headers : List (String × String)} {bytes : List UInt8}
    (hanswer : D.response_codec.to_allocvec ⟨content_type, headers⟩ = .ok bytes) {i n k : ℕ}
    (ho : owner σ.state.log i = .handling n k) :
    ∃ σ', Reachable D.system (.launching Finishing) σ σ' ∧ σ'.Quiet ∧
      owner σ'.state.log i ≠ .handling n k ∧
      ∀ j, owner σ'.state.log j = owner σ.state.log j ∨ owner σ'.state.log j = .free ∨
        ∃ n k c, owner σ'.state.log j = .done n k c := by
  have hledger := (h.wellBehaved fun _ _ he => he).invariant.ledger
  obtain ⟨hslot, hwaiting⟩ :=
    (hledger.handling i n).mp (show (owner σ.state.log i).invocation = some n by rw [ho]; rfl)
  obtain ⟨inv, hinv, -⟩ := Option.map_eq_some_iff.mp hslot
  -- every earlier answer has failed to serialize
  have hadmits : Finishing (.respond ⟨n, 200, [], content_type, headers⟩) σ.state := by
    refine ⟨fun c earlier hc heq => ?_, nofun⟩
    have hof : σ.state.ledger.invocation_of c = some n := by
      show σ.state.replies[c]?.map Reply.invocation = some n
      rw [hc]
      exact congrArg some heq
    rcases h.respond_over hc (hquiet _) with ⟨hfailed, -⟩ | htouched
    · exact hfailed
    · exact absurd (hwaiting c hof) (not_waiting_of_slot htouched)
  have hlaunch : D.launch (.respond ⟨n, 200, [], content_type, headers⟩) σ.state =
      some (.respond σ.state.replies.length,
        D.respond_program inv ⟨n, 200, [], content_type, headers⟩,
        { σ.state with replies := σ.state.replies ++ [⟨n, 200, [], content_type, headers⟩] }) := by
    simp only [launch, hinv]
    rfl
  obtain ⟨w', hrun, hreach⟩ := exists_launched hnames hquiet hadmits hlaunch
  refine ⟨_, hreach, hquiet, fun ho' => ?_, fun j => ?_⟩
  · have hledger' : w'.ledger.Invariant :=
      ((h.finish hreach).wellBehaved fun _ _ he => he).invariant.ledger
    have hidle : phase σ.state.log (.respond σ.state.replies.length) = .idle :=
      (h.wellBehaved fun _ _ he => he).invariant.phase_of_unknown (lt_irrefl _)
    have hkeeps := respond_program_over (D := D) inv ⟨n, 200, [], content_type, headers⟩
    rw [← hidle, phase, ← after_stage] at hkeeps
    have hend := keeps_runs hrun hkeeps
    rw [after_stage] at hend
    have hof : w'.ledger.invocation_of σ.state.replies.length = some n := by
      show w'.replies[σ.state.replies.length]?.map Reply.invocation = some n
      rw [runs_replies hrun, List.getElem?_append_right le_rfl, Nat.sub_self]
      rfl
    have hwait := ((hledger'.handling i n).mp
      (show (owner w'.log i).invocation = some n by rw [ho']; rfl)).2 _ hof
    rcases hend with ⟨-, e, he⟩ | htouched
    · rw [hanswer] at he
      cases he
    · exact not_waiting_of_slot htouched hwait
  · refine runs_log (I := fun log => owner log j = owner σ.state.log j ∨ owner log j = .free ∨
      ∃ n k c, owner log j = .done n k c) ?_ hrun (.inl rfl)
    intro a r log hlog
    rcases owner_respond a r log σ.state.replies.length j with hsame | hfree | ⟨n', k', hdone⟩
    · rw [hsame]
      exact hlog
    · exact .inr (.inl hfree)
    · exact .inr (.inr ⟨n', k', _, hdone⟩)

/-- The slots below `m` are settled: nobody has to publish, take or answer what they hold. -/
def Settled (w : World) (i : ℕ) : Prop :=
  owner w.log i = .free ∨ ∃ n k c, owner w.log i = .done n k c

/-- All handler invocations answer, one after the other. -/
theorem Reaches.after_responds (h : D.Reaches (.launching Admitted) σ) (hnames : D.Nameable)
    (hserializes : D.Serializes) (hquiet : σ.Quiet) {content_type : String}
    {headers : List (String × String)} {bytes : List UInt8}
    (hanswer : D.response_codec.to_allocvec ⟨content_type, headers⟩ = .ok bytes)
    (htaken : ∀ i < D.num_slots, ∀ k, owner σ.state.log i ≠ .ready k) {m : ℕ}
    (hm : m ≤ D.num_slots) :
    ∃ σ', Reachable D.system (.launching Finishing) σ σ' ∧ σ'.Quiet ∧
      (∀ i < D.num_slots, ∀ k, owner σ'.state.log i ≠ .ready k) ∧ ∀ i < m, Settled σ'.state i := by
  induction m with
  | zero => exact ⟨σ, .refl, hquiet, htaken, nofun⟩
  | succ m ih =>
      obtain ⟨τ, hreach, hquiet', htaken', hsettled⟩ := ih (by omega)
      have hτ := h.finish hreach
      obtain ⟨hwriting, hreading⟩ := hτ.quiet_owner hserializes hquiet' m
      by_cases hm' : Settled τ.state m
      · refine ⟨τ, hreach, hquiet', htaken', fun i hi => ?_⟩
        rcases Nat.lt_succ_iff_lt_or_eq.mp hi with hlt | rfl
        · exact hsettled i hlt
        · exact hm'
      · obtain ⟨n, k, ho⟩ : ∃ n k, owner τ.state.log m = .handling n k := by
          cases ho : owner τ.state.log m with
          | free => exact absurd (.inl ho) hm'
          | writing k => exact absurd ho (hwriting k)
          | ready k => exact absurd ho (htaken' m (by omega) k)
          | reading l k => exact absurd ho (hreading l k)
          | handling n k => exact ⟨n, k, rfl⟩
          | done n k c => exact absurd (.inr ⟨n, k, c, ho⟩) hm'
        obtain ⟨τ', hreach', hquiet'', hno, hother⟩ := hτ.after_respond hnames hquiet' hanswer ho
        refine ⟨τ', hreach.trans hreach', hquiet'', fun i hi k' ho' => ?_, fun i hi => ?_⟩
        · rcases hother i with hsame | hfree | ⟨n', k'', c, hdone⟩
          · exact htaken' i hi k' (hsame ▸ ho')
          · rw [hfree] at ho'
            cases ho'
          · rw [hdone] at ho'
            cases ho'
        · rcases hother i with hsame | hsettled'
          · rcases Nat.lt_succ_iff_lt_or_eq.mp hi with hlt | rfl
            · have hold := hsettled i hlt
              rw [Settled, ← hsame] at hold
              exact hold
            · exact absurd (hsame.trans ho) hno
          · exact hsettled'

/-- One pass of the watcher collects every answer. -/
theorem Reaches.after_watcher (h : D.Reaches (.launching Admitted) σ)
    (hnames : D.Nameable) (hquiet : σ.Quiet) (hsettled : ∀ i < D.num_slots, Settled σ.state i) :
    ∃ σ', Reachable D.system (.launching Finishing) σ σ' ∧ σ'.Quiet ∧
      ∀ i < D.num_slots, slot_status σ'.state.mem i = SLOT_FREE := by
  have hadmits : Finishing .watcher σ.state := ⟨trivial, nofun⟩
  obtain ⟨w', hrun, hreach⟩ := exists_launched hnames hquiet hadmits rfl
  refine ⟨_, hreach, hquiet, fun i hi => ?_⟩
  have hcleared : Cleared SLOT_DONE {i | i < D.hub_region.num_slots} w' :=
    pass_clears watch_slot_clears _ _ _ _ _ _ _ (h.running _) hrun
  have hstatus : slot_status w'.mem i = (owner w'.log i).status := (h.finish hreach).status hi
  have howner : owner w'.log i = owner σ.state.log i ∨ owner w'.log i = .free := by
    refine runs_log (I := fun log => owner log i = owner σ.state.log i ∨ owner log i = .free)
      ?_ hrun (.inl rfl)
    intro a r log hlog
    rcases owner_watcher a r log i with hsame | hfree
    · rw [hsame]
      exact hlog
    · exact .inr hfree
  show slot_status w'.mem i = SLOT_FREE
  have hfree : owner w'.log i = .free := by
    rcases howner with hsame | hfree
    · rcases hsettled i hi with hfree | ⟨n, k, c, hdone⟩
      · exact hsame.trans hfree
      · refine absurd ?_ (hcleared i hi)
        rw [hstatus, hsame, hdone]
        rfl
    · exact hfree
  rw [hstatus, hfree]
  rfl

/-- **No slot is ever stuck**: from every state that a bus can get into, whatever its threads are in
the middle of, there is a way on without another request after which no thread has anything left to
do and every slot is free. -/
theorem bus_drains (hnames : D.Nameable) (hserializes : D.Serializes)
    (hanswer : ∃ m bytes, D.response_codec.to_allocvec m = .ok bytes)
    (h : D.Reaches (.launching Admitted) σ) :
    ∃ σ', Reachable D.system (.launching Finishing) σ σ' ∧ σ'.Quiet ∧
      ∀ i < D.num_slots, slot_status σ'.state.mem i = SLOT_FREE := by
  obtain ⟨⟨content_type, headers⟩, bytes, hbytes⟩ := hanswer
  obtain ⟨σ₁, h₁, hquiet₁⟩ := h.completes (P := Finishing) hnames
  obtain ⟨σ₂, h₂, hquiet₂, htaken⟩ := (h.finish h₁).after_receive hnames hquiet₁
  obtain ⟨σ₃, h₃, hquiet₃, -, hsettled⟩ :=
    ((h.finish h₁).finish h₂).after_responds hnames hserializes hquiet₂ hbytes htaken le_rfl
  obtain ⟨σ₄, h₄, hquiet₄, hfree⟩ :=
    (((h.finish h₁).finish h₂).finish h₃).after_watcher hnames hquiet₃ hsettled
  exact ⟨σ₄, ((h₁.trans h₂).trans h₃).trans h₄, hquiet₄, hfree⟩

/-- A request that is just being read. -/
theorem bus_drains_small : ∃ σ σ' :
    Configuration bus Thread World, slot_status σ.state.mem 0 = SLOT_CLAIMED ∧
    Reachable small_total_bus.system (.launching Finishing) σ σ' ∧
      slot_status σ'.state.mem 0 = SLOT_FREE := by
  have hrun : (small_total_bus.system.play (.launching Admitted)
      ([.launch (.dispatch (small_call "a" [7]))] ++ small_steps (.dispatch 0) 16 ++
        [.launch (.receive 0)] ++ small_steps (.receive 0) 4) (Start small_start)).map
      (fun σ => slot_status σ.state.mem 0) = some SLOT_CLAIMED := by decide +kernel
  obtain ⟨σ, hplay, hstatus⟩ := Option.map_eq_some_iff.mp hrun
  have hσ : small_total_bus.Reaches (.launching Admitted) σ := small_bus_reaches hplay
  obtain ⟨σ', hreach, -, hfree⟩ := bus_drains (nameable_of_ne_macos (by decide)) (fun _ => ⟨_, rfl⟩)
    ⟨small_response, _, rfl⟩ hσ
  exact ⟨σ, σ', hstatus, hreach, hfree 0 (by decide)⟩

end Deployment

end SlotBus
