import SlotBus.Startup

/-!
# Who holds the handle of an overflow region

The call that creates an overflow region holds its handle in a local variable until it has published
the slot.  Then it gives the handle to the overflow map of its side, which has one entry for each
slot.

* `custody` — where the handle of a call is, as a typestate;
* `dispatch_program_custody`, `respond_program_custody` — the programs hand it on;
* `Reaches.reflects` — the custody of a thread agrees with its phase, and with the region that it
  has created.
-/

namespace SlotBus

open ByteMemory AtomicProgram AtomicProgram.Program

/-! ### The custody of a handle -/

/-- Where the handle of the overflow region of a call is. -/
inductive Custody where
  | writing (r : Option OverflowRegion)
  | owed (slot : ℕ) (r : OverflowRegion)
  | kept (side : Side) (slot : ℕ) (r : OverflowRegion)
  | settled (slot : ℕ)
  | withdrawn

namespace Custody

/-- After a slot has been published, a handle has to go to the map. -/
def published (slot : ℕ) : Option OverflowRegion → Custody
  | none => .settled slot
  | some r => .owed slot r

/-- The handle is in a local variable. -/
def local_variable : Custody → Option OverflowRegion
  | .writing o => o
  | .owed _ r => some r
  | .kept _ _ _ | .settled _ | .withdrawn => none

/-- Nothing has to be handed on. -/
def Settled (q : Custody) : Prop := ∀ i r, q ≠ .owed i r

end Custody

/-- A call first creates its region and publishes its slot, and then hands the handle on before it
does anything else. -/
def custody : Typestate bus Custody where
  allowed
    | .writing _, .overflow_insert _ _ _ | .writing _, .handle _ _ _ => False
    | .writing _, _ => True
    | .owed i r, .overflow_insert _ j q => j = i ∧ q = r
    | .owed _ _, _ => False
    | _, .pending_insert _ _ | _, .signal _ | _, .finish _ => True
    | _, _ => False
  next
    | .writing _, .shm_create _ _, .region r => .writing (some r)
    | .writing o, .store i v, _ => if v = SLOT_FREE then .withdrawn else .published i o
    | .owed _ _, .overflow_insert side i r, _ => .kept side i r
    | q, _, _ => q

/-- The custody of a thread with this history. -/
def custody_of (log : List Entry) (t : Thread) : Custody :=
  after custody (.writing none) (history t log)

/-! ### The programs hand the handle on -/

section Programs

/-- An action that leaves a call that is still writing where it is. -/
def Action.Steady (a : Action) : Prop :=
  ∀ o, custody.allowed (.writing o) a ∧ ∀ r, custody.next (.writing o) a r = .writing o

/-- What a program that places a payload returns is the region that it has created. -/
def Returns_region : Except SlotBusError (Option OverflowRegion) → Custody → Prop
  | .ok o, q => q = .writing o
  | .error _, q => ∃ o, q = .writing o

theorem custody_finish {q : Custody} (hq : q.Settled)
    {result : Except SlotBusError Unit} {x : Unit} :
    (custody.next q (.finish result) x).Settled := by
  cases q <;> exact hq

theorem keeps_steady {α : Type} {p : Program bus α} (hp : p.Confined Action.Steady)
    {o : Option OverflowRegion} {post : α → Custody → Prop} (hpost : ∀ v, post v (.writing o)) :
    custody.Keeps post (.writing o) p :=
  .of_confined hp (fun _ ha => ha o) hpost

theorem write_bytes_steady (x : ℕ) (bytes : List UInt8) :
    (liftM (write_bytes x bytes) : Fallible Unit).run.Confined Action.Steady :=
  confined_lift ⟨fun _ => ⟨trivial, fun _ => rfl⟩, fun _ => trivial⟩

theorem ensure_steady (c : Prop) [Decidable c] (e : SlotBusError) :
    (ensure c e).run.Confined Action.Steady := by
  unfold ensure
  split <;> trivial

theorem heap_write_steady (region : ShmRegion) (offset : ℕ) (data : List UInt8) :
    (region.heap_write_checked offset data).run.Confined Action.Steady := by
  unfold ShmRegion.heap_write_checked
  split
  · exact write_bytes_steady _ _
  · trivial

theorem write_body_fields_steady (d : Direction) (i offset len : ℕ) (marker : UInt8) :
    (write_body_fields d i offset len marker).run.Confined Action.Steady :=
  confined_bind (write_bytes_steady _ _) fun _ => confined_bind (write_bytes_steady _ _) fun _ =>
    write_bytes_steady _ _

theorem claim_first_steady (slots : List ℕ) : (claim_first slots).Confined Action.Steady := by
  induction slots with
  | nil => trivial
  | cons i rest ih =>
      refine ⟨fun _ => ⟨trivial, fun _ => rfl⟩, fun (b : Bool) => ?_⟩
      cases b with
      | true => trivial
      | false => exact ih

/-- What comes before the payload changes nothing. -/
theorem steady_then {α β : Type} {p : Fallible α} {f : α → Fallible β}
    {post : Except SlotBusError β → Custody → Prop} (hp : p.run.Confined Action.Steady)
    (herr : ∀ e, post (.error e) (.writing none))
    (hf : ∀ v, custody.Keeps post (.writing none) (f v).run) :
    custody.Keeps post (.writing none) (p >>= f).run := by
  refine Typestate.Keeps.bind_except (keeps_steady hp fun result => ?_)
  cases result with
  | error e => exact herr e
  | ok v => exact hf v

theorem try_create_custody (n : String) (size : ℕ) (o : Option OverflowRegion) :
    custody.Keeps (fun result q => match result with
      | .ok (some r) => q = .writing (some r)
      | _ => ∃ o, q = .writing o) (.writing o) (ShmRegion.try_create_exclusive n size).run := by
  refine ⟨trivial, fun (x : Created) => ?_⟩
  cases x with
  | region r => rfl
  | mapping_id_exists => exact ⟨o, rfl⟩
  | error text => exact ⟨o, rfl⟩

theorem create_exclusive_custody (target : Target) (n : String) (size : ℕ)
    (o : Option OverflowRegion) :
    custody.Keeps (fun result q => match result with
      | .ok (some r) => q = .writing (some r)
      | _ => ∃ o, q = .writing o) (.writing o) (ShmRegion.create_exclusive target n size).run := by
  unfold ShmRegion.create_exclusive
  refine Typestate.Keeps.bind_except ((try_create_custody n size o).mono fun result q hq => ?_)
  cases result with
  | error e => exact hq
  | ok found =>
      cases found with
      | some r => exact hq
      | none =>
          obtain ⟨o', rfl⟩ := hq
          have hreclaim :
              (ShmRegion.reclaim_orphaned_backing_file target n).run.Confined Action.Steady := by
            cases target with
            | windows => exact ⟨fun _ => ⟨trivial, fun _ => rfl⟩, fun _ => trivial⟩
            | _ => trivial
          refine Typestate.Keeps.bind_except (keeps_steady hreclaim fun result => ?_)
          cases result with
          | error e => exact ⟨o', rfl⟩
          | ok b =>
              cases b with
              | true => exact try_create_custody n size o'
              | false => exact ⟨o', rfl⟩

theorem fill_overflow_custody (r : OverflowRegion) (n : String) (data : List UInt8) :
    custody.Keeps (fun result q => q = .writing (some r) ∧ ∀ r', result = .ok r' → r' = r)
      (.writing (some r)) (ShmRegion.fill_overflow r n data).run := by
  unfold ShmRegion.fill_overflow
  split
  · exact ⟨trivial, fun _ => ⟨rfl, nofun⟩⟩
  · exact ⟨trivial, fun _ => ⟨rfl, fun r' h => (Except.ok.inj h).symm⟩⟩

/-- The generation loop returns the region that it has created last. -/
theorem create_overflow_custody (target : Target) (name_for : ℕ → Option String) (data : List UInt8)
    (remaining generation : ℕ) (last_name : String) (o : Option OverflowRegion) :
    custody.Keeps (fun result => Returns_region (result.map fun x => some x.1)) (.writing o)
      (ShmRegion.create_overflow_from target name_for data remaining generation last_name).run := by
  induction remaining generalizing generation last_name o with
  | zero => exact ⟨o, rfl⟩
  | succ remaining ih =>
      unfold ShmRegion.create_overflow_from
      cases name_for generation with
      | none => exact ⟨trivial, fun x => Empty.elim x⟩
      | some n =>
          show custody.Keeps _ _ ((ShmRegion.create_exclusive target n _) >>= _ : Fallible _).run
          refine Typestate.Keeps.bind_except
            ((create_exclusive_custody target n (ShmRegion.overflow_size_for data.length) o).mono
              fun result q hq => ?_)
          cases result with
          | error e => exact hq
          | ok found =>
              cases found with
              | none =>
                  obtain ⟨o', rfl⟩ := hq
                  exact ih (generation + 1) n o'
              | some r =>
                  obtain rfl : q = .writing (some r) := hq
                  refine Typestate.Keeps.bind_except
                    ((fill_overflow_custody r n data).mono fun result q hq => ?_)
                  obtain ⟨rfl, hsame⟩ := hq
                  cases result with
                  | error e => exact ⟨some r, rfl⟩
                  | ok r' =>
                      obtain rfl := hsame r' rfl
                      rfl

theorem write_body_custody (d : Direction) (target : Target) (region : ShmRegion) (i meta_len : ℕ)
    (body : List UInt8) (config : SlotBusConfig) :
    custody.Keeps Returns_region (.writing none)
      (write_body d target region i meta_len body config).run := by
  have hfields : ∀ (o : Option OverflowRegion) (offset len : ℕ) (marker : UInt8),
      custody.Keeps Returns_region (.writing o) (write_body_fields d i offset len marker >>=
        fun _ => pure o).run := by
    intro o offset len marker
    refine Typestate.Keeps.bind_except
      (keeps_steady (write_body_fields_steady d i offset len marker) fun result => ?_)
    cases result with
    | error e => exact ⟨o, rfl⟩
    | ok v => rfl
  unfold write_body
  split
  · exact hfields none _ _ _
  · simp only []
    split
    · refine Typestate.Keeps.bind_except
        (keeps_steady (heap_write_steady region _ body) fun result => ?_)
      cases result with
      | error e => exact ⟨none, rfl⟩
      | ok v => exact hfields none _ _ _
    · refine Typestate.Keeps.bind_except
        ((create_overflow_custody target _ body _ _ _ none).mono fun result q hq => ?_)
      cases result with
      | error e => exact hq
      | ok x =>
          obtain rfl : q = .writing (some x.1) := hq
          exact hfields (some x.1) _ _ _

/-- **Placing a payload** returns the region that it has created. -/
theorem write_payload_custody (d : Direction) (target : Target) (region : ShmRegion) (i : ℕ)
    (meta_bytes body : List UInt8) (config : SlotBusConfig) :
    custody.Keeps Returns_region (.writing none)
      (write_payload d target region i meta_bytes body config).run := by
  have herr : ∀ e, Returns_region (.error e) (.writing none) := fun _ => ⟨none, rfl⟩
  unfold write_payload
  refine steady_then (ensure_steady _ _) herr fun _ => ?_
  refine steady_then (heap_write_steady _ _ _) herr fun _ => ?_
  refine steady_then (write_bytes_steady _ _) herr fun _ => ?_
  refine steady_then (write_bytes_steady _ _) herr fun _ => ?_
  exact write_body_custody d target region i meta_bytes.length body config

/-- A call that has published its slot has to hand on the region that the program returns. -/
def Publishes_slot (i : ℕ) : Except SlotBusError (Option OverflowRegion) → Custody → Prop
  | .ok o, q => q = .published i o
  | .error _, q => ∃ o, q = .writing o

/-- A slot is published after its payload has been placed. -/
theorem publish_custody {p : Fallible (Option OverflowRegion)} {i v : ℕ}
    (hp : custody.Keeps Returns_region (.writing none) p.run) (hv : v ≠ SLOT_FREE) :
    custody.Keeps (Publishes_slot i) (.writing none)
      (p >>= fun overflow => (liftM (store i v) : Fallible Unit) >>=
        fun _ => pure overflow).run := by
  refine Typestate.Keeps.bind_except (hp.mono fun result q hq => ?_)
  cases result with
  | error e => exact hq
  | ok o =>
      obtain rfl : q = .writing o := hq
      refine ⟨trivial, fun _ => ?_⟩
      show (if v = SLOT_FREE then Custody.withdrawn else .published i o) = .published i o
      rw [if_neg hv]

theorem write_request_custody (target : Target) (region : ShmRegion) (i : ℕ)
    (req_id : String) (method : UInt8) (meta_bytes body : List UInt8) (config : SlotBusConfig) :
    custody.Keeps (fun result q => match result with
      | .ok o => q = .published i o
      | .error _ => q = .withdrawn) (.writing none)
      (write_request target region i req_id method meta_bytes body config) := by
  have herr : ∀ e, Publishes_slot i (.error e) (.writing none) := fun _ => ⟨none, rfl⟩
  have hinner : custody.Keeps (Publishes_slot i) (.writing none)
      (write_request_inner target region i req_id method meta_bytes body config).run := by
    unfold write_request_inner
    refine steady_then (ensure_steady _ _) herr fun _ => ?_
    refine steady_then (write_bytes_steady _ _) herr fun _ => ?_
    refine steady_then (write_bytes_steady _ _) herr fun _ => ?_
    refine steady_then (write_bytes_steady _ _) herr fun _ => ?_
    exact publish_custody (write_payload_custody .request target region i meta_bytes body config)
      (by decide)
  refine Typestate.Keeps.bind (hinner.mono fun result q hq => ?_)
  cases result with
  | ok o => exact hq
  | error e =>
      obtain ⟨o, rfl⟩ := hq
      exact ⟨trivial, fun _ => rfl⟩

theorem write_response_custody (target : Target) (region : ShmRegion) (i : ℕ) (status : UInt16)
    (meta_bytes body : List UInt8) (config : SlotBusConfig) :
    custody.Keeps (Publishes_slot i) (.writing none)
      (write_response target region i status meta_bytes body config).run := by
  have herr : ∀ e, Publishes_slot i (.error e) (.writing none) := fun _ => ⟨none, rfl⟩
  unfold write_response
  refine steady_then (ensure_steady _ _) herr fun _ => ?_
  refine steady_then (write_bytes_steady _ _) herr fun _ => ?_
  exact publish_custody (write_payload_custody .response target region i meta_bytes body config)
    (by decide)

/-- `dispatch` hands its region to the map after it has published the slot. -/
theorem dispatch_custody (D : Deployment) (k : ℕ) (call : DispatchCall) :
    custody.Keeps (fun _ q => q.Settled ∧ ∀ result, custody.allowed q (.finish result))
      (.writing none) (D.dispatch k call).run := by
  have hwriting :
      (Custody.writing none).Settled ∧ ∀ result, custody.allowed (.writing none) (.finish result) :=
    ⟨nofun, fun _ => trivial⟩
  unfold Deployment.dispatch
  refine Typestate.Keeps.bind_except
    (Typestate.Keeps.lift (keeps_steady (claim_first_steady _) fun claimed => ?_))
  cases claimed with
  | none => exact hwriting
  | some i =>
      cases D.request_codec.to_allocvec call.meta_ with
      | error x => exact hwriting
      | ok meta_bytes =>
          refine ⟨trivial, fun _ => ?_⟩
          refine Typestate.Keeps.bind_except
            (p := ExceptT.mk (write_request D.target D.hub_region i call.req_id
              (method_to_u8 call.method) meta_bytes call.body D.config))
            ((write_request_custody D.target D.hub_region i call.req_id (method_to_u8 call.method)
              meta_bytes call.body
              D.config).mono fun result q hq => ?_)
          cases result with
          | error x =>
              obtain rfl : q = .withdrawn := hq
              exact ⟨nofun, fun _ => trivial⟩
          | ok overflow =>
              obtain rfl : q = .published i overflow := hq
              cases overflow with
              | none => exact ⟨trivial, fun _ => ⟨trivial, fun _ => ⟨nofun, fun _ => trivial⟩⟩⟩
              | some r =>
                  exact ⟨⟨rfl, rfl⟩, fun _ =>
                    ⟨trivial, fun _ => ⟨trivial, fun _ => ⟨nofun, fun _ => trivial⟩⟩⟩⟩

/-- `send_response` hands its region to the map after it has published the slot. -/
theorem send_response_custody (D : Deployment) (inv : Invocation) (reply : Reply) :
    custody.Keeps (fun _ q => q.Settled ∧ ∀ result, custody.allowed q (.finish result))
      (.writing none)
      (D.send_response inv.worker inv.slot reply.status reply.body reply.content_type
        reply.headers).run := by
  unfold Deployment.send_response
  cases hmeta : D.response_codec.to_allocvec ⟨reply.content_type, reply.headers⟩ with
  | error x =>
      simp only [hmeta]
      exact ⟨nofun, fun _ => trivial⟩
  | ok meta_bytes =>
      simp only [hmeta]
      refine ⟨trivial, fun _ => ?_⟩
      refine Typestate.Keeps.bind_except
        (p := attempt (write_response D.target D.worker_region inv.slot reply.status
          meta_bytes reply.body D.config))
            (Typestate.Keeps.lift ((write_response_custody D.target D.worker_region inv.slot
              reply.status meta_bytes reply.body D.config).mono fun result q hq => ?_))
      cases result with
      | error x =>
          obtain ⟨o, rfl⟩ := hq
          exact ⟨trivial, fun _ => ⟨nofun, fun _ => trivial⟩⟩
      | ok overflow =>
          obtain rfl : q = .published inv.slot overflow := hq
          cases overflow with
          | none => exact ⟨trivial, fun _ => ⟨nofun, fun _ => trivial⟩⟩
          | some r => exact ⟨⟨rfl, rfl⟩, fun _ => ⟨trivial, fun _ => ⟨nofun, fun _ => trivial⟩⟩⟩

theorem dispatch_program_custody (D : Deployment) (k : ℕ) (call : DispatchCall) :
    custody.Keeps (fun _ => Custody.Settled) (.writing none) (D.dispatch_program k call) := by
  refine Typestate.Keeps.bind ((dispatch_custody D k call).mono fun result q hq =>
    ⟨hq.2 result, fun _ => ?_⟩)
  exact custody_finish hq.1

theorem respond_program_custody (D : Deployment) (inv : Invocation) (reply : Reply) :
    custody.Keeps (fun _ => Custody.Settled) (.writing none) (D.respond_program inv reply) := by
  refine Typestate.Keeps.bind ((send_response_custody D inv reply).mono fun result q hq =>
    ⟨hq.2 result, fun _ => ?_⟩)
  exact custody_finish hq.1

/-- In every run a thread that writes slots hands its region on. -/
theorem Deployment.Reaches.custody_keeps {D : Deployment}
    {discipline : Discipline bus Thread World Launch} {σ : Configuration bus Thread World}
    (h : D.Reaches discipline σ) {t : Thread} (ht : t.Writes) :
    custody.Keeps (fun _ => Custody.Settled) (custody_of σ.state.log t) (σ.program t) := by
  have hstart : (Custody.writing none).Settled := nofun
  refine h.keeps_once Custody.Settled hstart fun l w p w' hl => ?_
  obtain ⟨hnew, ⟨k, call, rfl, rfl⟩ | ⟨c, inv, reply, rfl, rfl⟩⟩ := Deployment.launch_writer hl ht
  · exact ⟨hnew, dispatch_program_custody D k call⟩
  · exact ⟨hnew, respond_program_custody D inv reply⟩

end Programs

/-! ### What the custody of a thread says -/

/-- The thread has published slot `i`. -/
def Phase.Past (p : Phase) (i : ℕ) : Prop := p = .published i ∨ p = .kept i ∨ p = .registered i

/-- The custody of a thread agrees with its phase and with the region that it has created last. -/
inductive Custody.Reflects : Custody → Phase → Option OverflowRegion → Prop where
  | writing {o : Option OverflowRegion} {p : Phase} (hp : ∀ i, ¬ p.Past i) :
      Reflects (.writing o) p o
  | owed (i : ℕ) (r : OverflowRegion) : Reflects (.owed i r) (.published i) (some r)
  | kept {side : Side} {i : ℕ} {r : OverflowRegion} {p : Phase}
      (hp : p = .kept i ∨ p = .registered i) :
      Reflects (.kept side i r) p (some r)
  | settled {i : ℕ} {p : Phase} (hp : p = .published i ∨ p = .registered i) :
      Reflects (.settled i) p none
  | withdrawn {p : Phase} {o : Option OverflowRegion} (hp : ∀ i, ¬ p.Past i) :
      Reflects .withdrawn p o

section Reflections

variable {t u : Thread} {a : Action} {r : Answer a} {log : List Entry} {q : Custody}
    {region : OverflowRegion}
  {side : Side} {i : ℕ}

/-- Only a store or an insertion brings a thread past a slot. -/
theorem Phase.not_past_advance {p : Phase} (hp : ∀ i, ¬ p.Past i) (hstore : ∀ i v, a ≠ .store i v)
    (hinsert : ∀ side i region, a ≠ .overflow_insert side i region) (i : ℕ) :
    ¬ (Entry.advance ⟨t, a, r⟩ p).Past i := by
  cases a with
  | store i v => exact absurd rfl (hstore i v)
  | overflow_insert side i region => exact absurd rfl (hinsert side i region)
  | compare_exchange j expected new =>
      change Bool at r
      cases r with
      | true => exact nofun
      | false => exact hp i
  | handle wk j request => exact nofun
  | pending_insert id tx =>
      cases p with
      | published j => exact absurd (.inl rfl) (hp j)
      | kept j => exact absurd (.inr (.inl rfl)) (hp j)
      | _ => exact hp i
  | finish result =>
      cases result with
      | ok v => exact hp i
      | error e =>
          cases e with
          | Serialization text =>
              cases p with
              | idle => exact nofun
              | _ => exact hp i
          | _ => exact hp i
  | _ => exact hp i

/-- Registering or finishing after the slot has been published. -/
theorem Phase.advance_closing {p : Phase} {i : ℕ}
    (hp : p = .published i ∨ p = .kept i ∨ p = .registered i)
    (ha : (∃ id tx, a = .pending_insert id tx) ∨ (∃ e, a = .signal e) ∨
      ∃ result, a = .finish result) :
    Entry.advance ⟨t, a, r⟩ p = p ∨ Entry.advance ⟨t, a, r⟩ p = .registered i := by
  rcases ha with ⟨id, tx, rfl⟩ | ⟨e, rfl⟩ | ⟨result, rfl⟩
  · rcases hp with rfl | rfl | rfl
    · exact .inr rfl
    · exact .inr rfl
    · exact .inl rfl
  · exact .inl rfl
  · refine .inl (advance_finish ?_)
    rintro ⟨e, -, hidle⟩
    rcases hp with rfl | rfl | rfl <;> cases hidle

/-- An action that no longer concerns the region. -/
theorem closing_of_allowed (t : Thread) (r : Answer a) (log : List Entry) (hq : custody.allowed q a)
    (hwriting : ∀ o, q ≠ .writing o) (howed : ∀ i r, q ≠ .owed i r) :
    ((∃ id tx, a = .pending_insert id tx) ∨ (∃ e, a = .signal e) ∨ ∃ result, a = .finish result) ∧
      custody.next q a r = q ∧ latest_region (⟨t, a, r⟩ :: log) = latest_region log := by
  cases q with
  | writing o => exact absurd rfl (hwriting o)
  | owed i r => exact absurd rfl (howed i r)
  | _ =>
      cases a with
      | pending_insert id tx => exact ⟨.inl ⟨id, tx, rfl⟩, rfl, rfl⟩
      | signal e => exact ⟨.inr (.inl ⟨e, rfl⟩), rfl, rfl⟩
      | finish result => exact ⟨.inr (.inr ⟨result, rfl⟩), rfl, rfl⟩
      | _ => exact hq.elim

/-- **One action** keeps the custody in agreement with the history. -/
theorem Custody.Reflects.step (h : q.Reflects (progress log) (latest_region log))
    (ha : custody.allowed q a) :
    (custody.next q a r).Reflects (progress (⟨t, a, r⟩ :: log))
    (latest_region (⟨t, a, r⟩ :: log)) := by
  show (custody.next q a r).Reflects (Entry.advance ⟨t, a, r⟩ (progress log)) _
  generalize hp : progress log = p at h ⊢
  generalize ho : latest_region log = o at h
  cases h with
  | writing hpast =>
      cases a with
      | shm_create n size =>
          change Created at r
          cases r with
          | region r => exact .writing hpast
          | _ => exact ho ▸ .writing hpast
      | store i v =>
          show Reflects (if v = SLOT_FREE then .withdrawn else .published i o)
              (if v = SLOT_FREE then _ else _) _
          by_cases hv : v = SLOT_FREE
          · rw [if_pos hv, if_pos hv]
            exact .withdrawn nofun
          · rw [if_neg hv, if_neg hv]
            show Reflects _ _ (latest_region log)
            rw [ho]
            cases o with
            | none => exact .settled (.inl rfl)
            | some r => exact .owed i r
      | overflow_insert side i r => exact ha.elim
      | handle wk i request => exact ha.elim
      | _ => exact ho ▸ .writing (Phase.not_past_advance hpast nofun nofun)
  | owed i region =>
      cases a with
      | overflow_insert side j q =>
          obtain ⟨rfl, rfl⟩ := ha
          exact ho ▸ .kept (.inl rfl)
      | _ => exact ha.elim
  | @kept side i region p hkept =>
      obtain ⟨hclosing, hnext, hlatest⟩ := closing_of_allowed t r log ha nofun nofun
      rw [hnext, hlatest, ho]
      rcases Phase.advance_closing (.inr hkept) hclosing with heq | heq
      · rw [heq]
        exact .kept hkept
      · rw [heq]
        exact .kept (.inr rfl)
  | @settled i p hsettled =>
      obtain ⟨hclosing, hnext, hlatest⟩ := closing_of_allowed t r log ha nofun nofun
      rw [hnext, hlatest, ho]
      rcases Phase.advance_closing (hsettled.imp_right .inr) hclosing with heq | heq
      · rw [heq]
        exact .settled hsettled
      · rw [heq]
        exact .settled (.inr rfl)
  | withdrawn hpast =>
      obtain ⟨hclosing, hnext, -⟩ := closing_of_allowed t r log ha nofun nofun
      rw [hnext]
      refine .withdrawn (Phase.not_past_advance hpast ?_ ?_)
      · rintro i v rfl
        simp at hclosing
      · rintro side i r rfl
        simp at hclosing

/-- A region in a local variable is the one that the thread has created last. -/
theorem Custody.Reflects.latest_of_local {p : Phase} {o : Option OverflowRegion}
    (h : q.Reflects p o) (hr : q.local_variable = some region) : o = some region := by
  cases h with
  | writing _ => exact hr
  | owed i r => exact hr
  | _ => cases hr

theorem Custody.Reflects.latest_of_kept {p : Phase} {o : Option OverflowRegion}
    (h : (Custody.kept side i region).Reflects p o) : o = some region ∧ p.Past i := by
  cases h with
  | kept hp => exact ⟨rfl, .inr hp⟩

/-- Once the handle is in an entry, the call does nothing more with it. -/
theorem custody_next_kept : custody.next (.kept side i region) a r = .kept side i region := rfl

/-- A handle is in an entry because the call has put it there. -/
theorem custody_next_eq_kept (h : custody.next q a r = .kept side i region) :
    q = .kept side i region ∨ a = .overflow_insert side i region := by
  cases q with
  | writing o =>
      cases a with
      | shm_create n size =>
          change Created at r
          cases r <;> cases h
      | store j s =>
          change (if s = SLOT_FREE then Custody.withdrawn else .published j o) = _ at h
          split at h
          · cases h
          · cases o <;> cases h
      | _ => cases h
  | owed j q =>
      cases a with
      | overflow_insert side' k q' =>
          obtain ⟨rfl, rfl, rfl⟩ := Custody.kept.inj h
          exact .inr rfl
      | _ => cases h
  | _ => exact .inl h

/-- A region gets into a local variable when it is created. -/
theorem custody_next_local (h : (custody.next q a r).local_variable = some region) :
    q.local_variable = some region ∨ ∃ n size,
      (⟨t, a, r⟩ : Entry) = ⟨t, .shm_create n size, .region region⟩ := by
  cases q with
  | writing o =>
      cases a with
      | shm_create n size =>
          change Created at r
          cases r with
          | region new =>
              obtain rfl : new = region := Option.some.inj h
              exact .inr ⟨n, size, rfl⟩
          | _ => exact .inl h
      | store j s =>
          change (if s = SLOT_FREE then Custody.withdrawn else .published j o).local_variable =
            _ at h
          split at h
          · cases h
          · cases o with
            | none => cases h
            | some r' => exact .inl h
      | _ => exact .inl h
  | owed j q =>
      cases a with
      | overflow_insert side k q' => cases h
      | _ => exact .inl h
  | _ => cases h

theorem custody_of_cons_self :
    custody_of (⟨t, a, r⟩ :: log) t = custody.next (custody_of log t) a r := by
  simp only [custody_of, history_cons_self, after]

theorem custody_of_cons_of_ne (h : u ≠ t) : custody_of (⟨u, a, r⟩ :: log) t = custody_of log t := by
  simp only [custody_of, history_cons_of_ne h]

end Reflections

/-- The custody of every thread that writes slots agrees with its history. -/
def Reflected (log : List Entry) : Prop :=
  ∀ t : Thread, t.Writes → (custody_of log t).Reflects (phase log t) (latest_region (history t log))

theorem Deployment.Reaches.reflected {D : Deployment}
    {discipline : Discipline bus Thread World Launch} {σ : Configuration bus Thread World}
    (h : D.Reaches discipline σ) : Reflected σ.state.log := by
  refine h.induct (P := fun τ => Reflected τ.state.log) (fun _ _ _ _ _ t _ => .writing nofun)
    (fun τ t a rest c r w' hτ ih hp _ hx => ?_) fun τ e t p w' _ ih _ _ hx => ?_
  · intro u hu
    rw [(exec_changes hx).log]
    by_cases hut : t = u
    · subst hut
      have hkeeps := hτ.custody_keeps hu
      rw [hp] at hkeeps
      rw [custody_of_cons_self, phase, history_cons_self]
      exact (ih t hu).step hkeeps.1
    · rw [custody_of_cons_of_ne hut, phase_cons_of_ne hut, history_cons_of_ne hut]
      exact ih u hu
  · obtain ⟨calls, replies, rfl⟩ := Deployment.launch_eq hx
    exact ih

end SlotBus
