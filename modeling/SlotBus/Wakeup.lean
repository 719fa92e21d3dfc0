import SlotBus.Registration
import SlotBus.Solo

/-!
# No lost wake-up

A thread that waits for an event visits every slot between two waits, and a publisher signals the
event after it has stored the status that the event announces.  Between the two a token is never
missing: as long as a slot keeps the announced status after the signal, the event has a token, or
the waiting thread is on its way to the slot.

* `scan`, `publication` — the typestates of the threads that wait and of those that signal;
* `Announced` — the invariant, for both events and for both ways in which tokens are counted;
* `no_lost_wakeup` — the result for all runs.
-/

namespace SlotBus

open ByteMemory AtomicProgram AtomicProgram.Program

/-! ### Waiting and signalling -/

/-- The thread that waits for an event, where there is one receive loop. -/
def NamedEvent.waiter : NamedEvent → Thread
  | .request => .receive 0
  | .response => .watcher

/-- The status that an event announces. -/
def NamedEvent.announces : NamedEvent → ℕ
  | .request => SLOT_READY
  | .response => SLOT_DONE

/-- The threads that signal an event. -/
inductive NamedEvent.Publisher : NamedEvent → Thread → Prop where
  | dispatch (k : ℕ) : Publisher .request (.dispatch k)
  | respond (c : ℕ) : Publisher .response (.respond c)

theorem NamedEvent.Publisher.writes {e : NamedEvent} {t : Thread} (h : e.Publisher t) :
    t.Writes := by
  cases h <;> trivial

/-- A status that no event announces. -/
structure Unannounced (v : ℕ) : Prop where
  lt : v < 2 ^ 32
  ne : ∀ e : NamedEvent, v ≠ e.announces

theorem unannounced_free : Unannounced SLOT_FREE := ⟨by decide, fun e => by cases e <;> decide⟩

theorem unannounced_writing : Unannounced SLOT_WRITING :=
  ⟨by decide, fun e => by cases e <;> decide⟩

theorem unannounced_claimed : Unannounced SLOT_CLAIMED :=
  ⟨by decide, fun e => by cases e <;> decide⟩

theorem NamedEvent.announces_lt (e : NamedEvent) : e.announces < 2 ^ 32 := by
  cases e <;> decide

theorem NamedEvent.announces_inj {e e' : NamedEvent} (h : e.announces = e'.announces) : e = e' := by
  cases e <;> cases e' <;> first | rfl | exact absurd h (by decide)

/-- The thread that has set the status of a slot last. -/
def status_writer : List Entry → ℕ → Option Thread
  | [], _ => none
  | ⟨t, .store j _, _⟩ :: log, i => if j = i then some t else status_writer log i
  | ⟨t, .compare_exchange j _ _, true⟩ :: log, i => if j = i then some t else status_writer log i
  | _ :: log, i => status_writer log i

/-- The thread has signalled the event. -/
def Signalled (log : List Entry) (t : Thread) (e : NamedEvent) : Prop :=
  (⟨t, .signal e, ()⟩ : Entry) ∈ log

section Typestates

variable (D : Deployment) (e : NamedEvent)

/-- The slots that a waiting thread has not passed since its last wait.  It has passed a slot when
it has found another status there than the announced one, or has exchanged the status; and it waits
again only when it has passed all of them. -/
def scan : Typestate bus (Set ℕ) where
  allowed
    | q, .wait e' => e' = e ∧ ∀ i < D.num_slots, i ∉ q
    | _, .compare_exchange _ expected new => expected = e.announces ∧ Unannounced new
    | _, .store _ v => Unannounced v
    | _, .write _ _ => False
    | _, _ => True
  next
    | _, .wait _, _ => Set.univ
    | q, .compare_exchange i _ _, _ => q \ {i}
    | q, .load i, (v : ℕ) => if v = e.announces then q else q \ {i}
    | q, _, _ => q

/-- Whether a publisher has signalled.  It stores the announced status before, if it does. -/
def publication : Typestate bus Bool where
  allowed
    | _, .wait _ => False
    | _, .compare_exchange _ _ new => Unannounced new
    | q, .store _ v => Unannounced v ∨ v = e.announces ∧ q = false
    | _, .write x bytes => ∀ j < D.num_slots, Disjoint (span x bytes.length) (status_word j)
    | _, _ => True
  next
    | q, .signal e', _ => decide (e' = e) || q
    | q, _, _ => q

/-- The slots that the waiting thread has not passed, by its history. -/
def due (log : List Entry) : Set ℕ := after (scan D e) ∅ (history e.waiter log)

end Typestates

/-! ### The programs keep to them -/

section Programs

variable {D : Deployment} {e : NamedEvent}

/-- Reading a payload passes no slot. -/
theorem scan_looks {q : Set ℕ} {a : Action} (ha : a.looks) :
    (scan D e).allowed q a ∧ ∀ r, (scan D e).next q a r = q := by
  cases a <;> first | exact ha.elim | exact ⟨trivial, fun _ => rfl⟩

/-- **Visiting slots** passes each of them. -/
theorem for_each_scans {visit : ℕ → Program bus Unit}
    (hvisit : ∀ i q, (scan D e).Keeps (fun _ q' => q' ⊆ q \ {i}) q (visit i))
    (slots : List ℕ) (q : Set ℕ) :
    (scan D e).Keeps (fun _ q' => ∀ i ∈ q', i ∈ q ∧ i ∉ slots) q
    (Deployment.for_each visit slots) := by
  induction slots generalizing q with
  | nil =>
      intro i hi
      exact ⟨hi, List.not_mem_nil⟩
  | cons j rest ih =>
      refine Typestate.Keeps.bind ((hvisit j q).mono fun _ q₁ h₁ =>
        (ih q₁).mono fun _ q₂ h₂ i hi => ?_)
      obtain ⟨hq, hrest⟩ := h₂ i hi
      obtain ⟨hold, hne⟩ := h₁ hq
      refine ⟨hold, fun hmem => ?_⟩
      rcases List.mem_cons.mp hmem with heq | hmem
      · exact hne heq
      · exact hrest hmem

theorem receive_slot_scans (l i : ℕ) (q : Set ℕ) :
    (scan D .request).Keeps (fun _ q' => q' ⊆ q \ {i}) q (D.receive_slot l i) := by
  unfold Deployment.receive_slot
  refine ⟨⟨rfl, unannounced_claimed⟩, fun (b : Bool) => ?_⟩
  cases b with
  | false => exact Set.Subset.rfl
  | true =>
      refine Typestate.Keeps.bind
        (p := (read_request D.request_codec D.target D.worker_region i D.config).run)
        (Typestate.Keeps.of_confined (read_request_confined _) (fun _ ha => scan_looks ha)
          fun result => ?_)
      cases result with
      | error x => exact ⟨unannounced_free, fun _ => Set.Subset.rfl⟩
      | ok request => exact ⟨trivial, fun _ => Set.Subset.rfl⟩

theorem watch_slot_scans (i : ℕ) (q : Set ℕ) :
    (scan D .response).Keeps (fun _ q' => q' ⊆ q \ {i}) q (D.watch_slot i) := by
  unfold Deployment.watch_slot
  refine ⟨trivial, fun (status : ℕ) => ?_⟩
  show (scan D .response).Keeps _ (if status = NamedEvent.response.announces then q else q \ {i})
    (if status ≠ SLOT_DONE then _ else _)
  by_cases hdone : status = SLOT_DONE
  · rw [if_pos (show status = NamedEvent.response.announces from hdone),
      if_neg (not_not_intro hdone)]
    refine ⟨trivial, fun raw => ?_⟩
    refine Typestate.Keeps.bind
      (p := (read_response D.response_codec D.target D.hub_region i D.config).run)
      (Typestate.Keeps.of_confined (read_response_confined _) (fun _ ha => scan_looks ha)
        fun result => ?_)
    refine ⟨⟨rfl, unannounced_free⟩, fun (b : Bool) => ?_⟩
    cases b with
    | false => exact Set.Subset.rfl
    | true =>
        refine ⟨trivial, fun _ => ?_⟩
        cases result with
        | error x => exact Set.Subset.rfl
        | ok answer =>
            refine ⟨trivial, fun (found : Option ℕ) => ?_⟩
            cases found with
            | none => exact Set.Subset.rfl
            | some tx => exact ⟨trivial, fun _ => Set.Subset.rfl⟩
  · rw [if_neg (show ¬ status = NamedEvent.response.announces from hdone), if_pos hdone]
    exact Set.Subset.rfl

/-- After a pass nothing is left to visit, if nothing was before. -/
def Visited (D : Deployment) (q : Set ℕ) : Prop := ∀ i < D.num_slots, i ∉ q

/-- A pass waits, and then visits every slot. -/
theorem pass_scans {visit : ℕ → Program bus Unit} {n : ℕ} (hn : n = D.num_slots)
    (hvisit : ∀ i q, (scan D e).Keeps (fun _ q' => q' ⊆ q \ {i}) q (visit i))
    {q : Set ℕ} (hq : Visited D q) (side : Side) :
    (scan D e).Keeps (fun _ => Visited D) q (do
      if ← running side then
        let _ ← wait e
        Deployment.for_each visit (List.range n)
      else pure ()) := by
  refine ⟨trivial, fun (b : Bool) => ?_⟩
  cases b with
  | false => exact hq
  | true =>
      refine ⟨⟨rfl, hq⟩, fun _ => ?_⟩
      refine (for_each_scans hvisit (List.range n) Set.univ).mono fun _ q' hq' i hi hmem => ?_
      exact (hq' i hmem).2 (List.mem_range.mpr (hn ▸ hi))

/-! ### The programs that signal -/

/-- An action that leaves a publisher where it is, before it has signalled. -/
def Unsignalled (D : Deployment) (e : NamedEvent) (a : Action) : Prop :=
  (publication D e).allowed false a ∧ ∀ r, (publication D e).next false a r = false

/-- The addresses of a payload and of its record. -/
def placed (region : ShmRegion) (d : Direction) (i : ℕ) : Set ℕ := record d i ∪ heap region

theorem placed_disjoint {region : ShmRegion} (h : region.TableBelowHeap)
    (hn : region.num_slots = D.num_slots) {x n : ℕ} {d : Direction} {i : ℕ}
    (hsub : span x n ⊆ placed region d i) :
    ∀ j < D.num_slots, Disjoint (span x n) (status_word j) := by
  intro j hj
  have hrecord := record_disjoint_status d i j
  have hheap := (status_word_disjoint_heap h (hn ▸ hj : j < region.num_slots)).symm
  exact (hrecord.sup_left hheap).mono_left hsub

theorem unsignalled_fills {region : ShmRegion} (h : region.TableBelowHeap)
    (hn : region.num_slots = D.num_slots) {d : Direction} {i : ℕ} {a : Action}
    (ha : a.fills (placed region d i)) : Unsignalled D e a := by
  cases a <;> first
    | exact ha.elim
    | exact ⟨placed_disjoint h hn ha, fun _ => rfl⟩
    | exact ⟨trivial, fun _ => rfl⟩

theorem write_payload_unsignalled {region : ShmRegion} (h : region.TableBelowHeap)
    (hn : region.num_slots = D.num_slots) (d : Direction) (target : Target) (i : ℕ)
    (meta_bytes body : List UInt8) (config : SlotBusConfig) :
    (write_payload d target region i meta_bytes body config).run.Confined (Unsignalled D e) := by
  refine (write_payload_confined d target region i meta_bytes body config).mono fun a ha => ?_
  exact unsignalled_fills h hn (ha.mono (Set.union_subset_union_left _ (pointer_fields_subset d i)))

/-- A write to a field of the record. -/
theorem write_field_unsignalled {region : ShmRegion} (h : region.TableBelowHeap)
    (hn : region.num_slots = D.num_slots) (d : Direction) (i : ℕ) {x : ℕ} {bytes : List UInt8}
    (hsub : span x bytes.length ⊆ record d i) : Unsignalled D e (.write x bytes) :=
  ⟨placed_disjoint h hn (hsub.trans Set.subset_union_left), fun _ => rfl⟩

theorem write_request_unsignalled {region : ShmRegion} (h : region.TableBelowHeap)
    (hn : region.num_slots = D.num_slots) (target : Target) (i : ℕ)
    (req_id : String) (method : UInt8) (meta_bytes body : List UInt8) (config : SlotBusConfig) :
    (write_request target region i req_id method meta_bytes body config).Confined
    (Unsignalled D .request) := by
  have hfield : ∀ (k : ℕ) (bytes : List UInt8), 4 ≤ k → k + bytes.length ≤ 61 →
      Unsignalled D .request (.write (slot_address i + k) bytes) := fun k bytes h1 h2 =>
    write_field_unsignalled h hn .request i (request_record_subset h1 h2)
  have hinner :
      (write_request_inner target region i req_id method meta_bytes body config).run.Confined
      (Unsignalled D .request) := by
    unfold write_request_inner
    refine confined_bind ?_ fun _ => ?_
    · unfold ensure
      split <;> trivial
    refine confined_bind (confined_lift ⟨hfield 4 _ le_rfl (by simp), fun _ => trivial⟩) fun _ => ?_
    refine confined_bind (confined_lift ⟨hfield 4 _ le_rfl ?_, fun _ => trivial⟩) fun _ => ?_
    · have := List.length_take_le 36 req_id.toUTF8.toList
      omega
    refine confined_bind (confined_lift ⟨hfield 40 _ (by omega) (by simp), fun _ => trivial⟩)
      fun _ => ?_
    refine confined_bind (write_payload_unsignalled h hn _ _ _ _ _ _) fun overflow => ?_
    exact confined_bind (confined_lift ⟨⟨.inr ⟨rfl, rfl⟩, fun _ => rfl⟩, fun _ => trivial⟩) fun _ =>
      trivial
  refine Confined.bind hinner fun result => ?_
  cases result with
  | ok overflow => trivial
  | error x => exact ⟨⟨.inl unannounced_free, fun _ => rfl⟩, fun _ => trivial⟩

theorem write_response_unsignalled {region : ShmRegion} (h : region.TableBelowHeap)
    (hn : region.num_slots = D.num_slots) (target : Target) (i : ℕ) (status : UInt16)
    (meta_bytes body : List UInt8) (config : SlotBusConfig) :
    (write_response target region i status meta_bytes body config).run.Confined
    (Unsignalled D .response) := by
  unfold write_response
  refine confined_bind ?_ fun _ => ?_
  · unfold ensure
    split <;> trivial
  refine confined_bind
    (confined_lift ⟨write_field_unsignalled h hn .response i ?_, fun _ => trivial⟩) fun _ => ?_
  · exact response_record_subset le_rfl (by rw [encodeLE_length]; omega)
  refine confined_bind (write_payload_unsignalled h hn _ _ _ _ _ _) fun overflow => ?_
  exact confined_bind (confined_lift ⟨⟨.inr ⟨rfl, rfl⟩, fun _ => rfl⟩, fun _ => trivial⟩) fun _ =>
    trivial

theorem claim_first_unsignalled (slots : List ℕ) :
    (claim_first slots).Confined (Unsignalled D e) := by
  induction slots with
  | nil => trivial
  | cons i rest ih =>
      refine ⟨⟨unannounced_writing, fun _ => rfl⟩, fun (b : Bool) => ?_⟩
      cases b with
      | true => trivial
      | false => exact ih

/-- `dispatch` signals after it has published the slot. -/
theorem dispatch_publishes (hD : D.Sound) (k : ℕ) (call : DispatchCall) :
    (publication D .request).Keeps (fun _ _ => True) false (D.dispatch k call).run := by
  have hcalm : ∀ {α : Type} {p : Program bus α} {post : α → Bool → Prop},
      p.Confined (Unsignalled D .request) →
      (∀ v, post v false) → (publication D .request).Keeps post false p := fun hp hpost =>
    .of_confined hp (fun _ ha => ha) hpost
  have hregister : (publication D .request).Keeps (fun _ _ => True) false (do
      pending_insert call.req_id k
      signal .request
      pure (.ok ()) : Program bus (Except SlotBusError Unit)) := ⟨trivial, fun _ =>
        ⟨trivial, fun _ => trivial⟩⟩
  unfold Deployment.dispatch
  refine Typestate.Keeps.bind_except
    (Typestate.Keeps.lift (hcalm (claim_first_unsignalled _) fun claimed => ?_))
  cases claimed with
  | none => trivial
  | some i =>
      cases hmeta : D.request_codec.to_allocvec call.meta_ with
      | error x => simp only []; trivial
      | ok meta_bytes =>
          simp only []
          refine ⟨trivial, fun _ => ?_⟩
          refine Typestate.Keeps.bind_except
            (p := ExceptT.mk (write_request D.target D.hub_region i call.req_id
              (method_to_u8 call.method) meta_bytes call.body D.config))
            (hcalm (write_request_unsignalled hD.hub_table rfl _ _ _ _ _ _ _) fun result => ?_)
          cases result with
          | error x => trivial
          | ok overflow =>
              cases overflow with
              | none => exact hregister
              | some q => exact ⟨trivial, fun _ => hregister⟩

theorem dispatch_program_publishes (hD : D.Sound) (k : ℕ) (call : DispatchCall) :
    (publication D .request).Keeps (fun _ _ => True) false (D.dispatch_program k call) :=
  Typestate.Keeps.bind ((dispatch_publishes hD k call).mono fun _ _ _ =>
    ⟨trivial, fun _ => trivial⟩)

/-- `send_response` signals after it has published the slot. -/
theorem send_response_publishes (hD : D.Sound) (inv : Invocation) (reply : Reply) :
    (publication D .response).Keeps (fun _ _ => True) false
      (D.send_response inv.worker inv.slot reply.status reply.body reply.content_type
        reply.headers).run := by
  unfold Deployment.send_response
  cases hmeta : D.response_codec.to_allocvec ⟨reply.content_type, reply.headers⟩ with
  | error x => simp only [hmeta]; trivial
  | ok meta_bytes =>
      simp only [hmeta]
      refine ⟨trivial, fun _ => ?_⟩
      refine Typestate.Keeps.bind_except
        (p := attempt (write_response D.target D.worker_region inv.slot reply.status
          meta_bytes reply.body D.config)) (Typestate.Keeps.lift (.of_confined
            (write_response_unsignalled hD.worker_table hD.num_slots_eq _ _ _ _ _ _)
            (fun _ ha => ha) fun result => ?_))
      cases result with
      | error x => exact ⟨.inl unannounced_free, fun _ => trivial⟩
      | ok overflow =>
          cases overflow with
          | none => exact ⟨trivial, fun _ => trivial⟩
          | some q => exact ⟨trivial, fun _ => ⟨trivial, fun _ => trivial⟩⟩

theorem respond_program_publishes (hD : D.Sound) (inv : Invocation) (reply : Reply) :
    (publication D .response).Keeps (fun _ _ => True) false (D.respond_program inv reply) :=
  Typestate.Keeps.bind ((send_response_publishes hD inv reply).mono fun _ _ _ =>
    ⟨trivial, fun _ => trivial⟩)

end Programs

/-! ### What the history of a run says -/

section Histories

variable {D : Deployment} {e : NamedEvent} {t u : Thread} {a : Action} {r : Answer a}
    {log : List Entry} {i : ℕ}

/-- An action on no status word leaves the writers alone. -/
theorem status_writer_of_none (ha : a.status_slot = none) :
    status_writer (⟨t, a, r⟩ :: log) i = status_writer log i := by
  cases a <;> first | rfl | cases ha

theorem status_writer_of_store (v : ℕ) (x : Unit) :
    status_writer (⟨t, .store i v, x⟩ :: log) i = some t := if_pos rfl

/-- An action on the status word of another slot. -/
theorem status_writer_of_ne {j : ℕ} (ha : a.status_slot = some j) (hj : j ≠ i) :
    status_writer (⟨t, a, r⟩ :: log) i = status_writer log i := by
  cases a with
  | store k v =>
      obtain rfl := Option.some.inj ha
      exact if_neg hj
  | compare_exchange k expected new =>
      obtain rfl := Option.some.inj ha
      cases r with
      | true => exact if_neg hj
      | false => rfl
  | _ => cases ha

/-- A signal is the action that signals. -/
theorem signalled_cons (h : Signalled (⟨u, a, r⟩ :: log) t e) :
    (u = t ∧ a = .signal e) ∨ Signalled log t e := by
  rcases List.mem_cons.mp h with heq | hmem
  · cases heq
    exact .inl ⟨rfl, rfl⟩
  · exact .inr hmem

/-- The typestate of a publisher says whether it has signalled. -/
theorem after_publication (h : after (publication D e) false (history t log) = false) :
    ¬ Signalled log t e := by
  induction log with
  | nil => exact List.not_mem_nil
  | cons entry log ih =>
      obtain ⟨u, a, r⟩ := entry
      intro hsignal
      by_cases hu : u = t
      · subst hu
        rw [history_cons_self] at h
        change (publication D e).next (after (publication D e) false (history u log)) a r =
          false at h
        rcases signalled_cons hsignal with ⟨-, rfl⟩ | hold
        · simp [publication] at h
        · refine ih ?_ hold
          cases a <;> first | exact h | exact (Bool.or_eq_false_iff.mp h).2
      · rw [history_cons_of_ne hu] at h
        rcases signalled_cons hsignal with ⟨heq, -⟩ | hold
        · exact hu heq
        · exact ih h hold

theorem due_cons_self (a : Action) (r : Answer a) :
    due D e (⟨e.waiter, a, r⟩ :: log) = (scan D e).next (due D e log) a r := by
  simp only [due, history_cons_self, after]

theorem due_cons_of_ne (h : t ≠ e.waiter) : due D e (⟨t, a, r⟩ :: log) = due D e log := by
  simp only [due, history_cons_of_ne h]

end Histories

/-! ### Announcements -/

/-- **What every thread keeps to**, whatever it does next. -/
structure Conduct (D : Deployment) (w : World) (t : Thread) (a : Action) : Prop where
  written : ∀ j < D.num_slots, Disjoint a.written (status_word j)
  store : ∀ i v, a = .store i v →
    Unannounced v ∨ ∃ e : NamedEvent, v = e.announces ∧ e.Publisher t ∧ ¬ Signalled w.log t e
  swap : ∀ i expected new, a = .compare_exchange i expected new →
    Unannounced new ∧ ∀ e : NamedEvent, t = e.waiter → expected = e.announces
  wait : ∀ e, a = .wait e → t = e.waiter ∧ Visited D (due D e w.log)

/-- Every slot with the status that the event announces has it from a publisher of the event; and if
that has signalled, the event has a token, or the waiting thread is on its way to the slot. -/
structure Announced (D : Deployment) (e : NamedEvent) (w : World) : Prop where
  author : ∀ i < D.num_slots, slot_status w.mem i = e.announces → ∃ t, e.Publisher t ∧
    status_writer w.log i = some t
  noticed : ∀ i < D.num_slots, ∀ t, slot_status w.mem i = e.announces →
    status_writer w.log i = some t →
    Signalled w.log t e → 0 < w.event e ∨ i ∈ due D e w.log

section Steps

variable {D : Deployment} {e : NamedEvent} {t : Thread} {a : Action} {c : Choice} {r : Answer a}
    {w w' : World} {i : ℕ}

/-- If a slot has the announced status after an action, then the action has stored it, or it was
there before and its writer is the same. -/
theorem announced_cases (hc : Conduct D w t a) (hx : (machine D.target).exec t a c w = some (r, w'))
    (hi : i < D.num_slots) (hs : slot_status w'.mem i = e.announces) :
    (e.Publisher t ∧ ¬ Signalled w.log t e ∧ status_writer w'.log i = some t ∧
      ∀ e', a ≠ .signal e') ∨
      slot_status w.mem i = e.announces ∧ status_writer w'.log i = status_writer w.log i := by
  have hlog := (exec_changes hx).log
  cases ha : a.status_slot with
  | none =>
      refine .inr ⟨?_, by rw [hlog, status_writer_of_none ha]⟩
      rw [← Deployment.status_of_exec hx ha hc.written i hi]
      exact hs
  | some j =>
      by_cases hj : j = i
      · subst hj
        cases a with
        | store k v =>
            obtain rfl : k = j := Option.some.inj ha
            have hmem := Deployment.mem_of_store hx
            rcases hc.store k v rfl with hv | ⟨e', rfl, hpub, hnot⟩
            · rw [hmem, slot_status_set_self hv.lt] at hs
              exact absurd hs (hv.ne e)
            · rw [hmem, slot_status_set_self e'.announces_lt] at hs
              obtain rfl := NamedEvent.announces_inj hs
              refine .inl ⟨hpub, hnot, ?_, fun _ => nofun⟩
              rw [hlog]
              exact status_writer_of_store _ r
        | compare_exchange k expected new =>
            obtain rfl : k = j := Option.some.inj ha
            obtain ⟨hnew, -⟩ := hc.swap k expected new rfl
            rcases Deployment.mem_of_swap hx with ⟨-, -, hmem⟩ | ⟨rfl, -, hmem⟩
            · rw [hmem, slot_status_set_self hnew.lt] at hs
              exact absurd hs (hnew.ne e)
            · rw [hmem] at hs
              refine .inr ⟨hs, ?_⟩
              rw [hlog]
              rfl
        | _ => cases ha
      · refine .inr ⟨?_, by rw [hlog, status_writer_of_ne ha hj]⟩
        cases a with
        | store k v =>
            obtain rfl : k = j := Option.some.inj ha
            rw [Deployment.mem_of_store hx, slot_status_set_of_ne hj] at hs
            exact hs
        | compare_exchange k expected new =>
            obtain rfl : k = j := Option.some.inj ha
            rcases Deployment.mem_of_swap hx with ⟨-, -, hmem⟩ | ⟨-, -, hmem⟩
            · rw [hmem, slot_status_set_of_ne hj] at hs
              exact hs
            · rw [hmem] at hs
              exact hs
        | _ => cases ha

/-- The waiting thread passes no slot that has the announced status. -/
theorem due_step (hc : Conduct D w t a) (hx : (machine D.target).exec t a c w = some (r, w'))
    (hs' : slot_status w'.mem i = e.announces) (hs : slot_status w.mem i = e.announces)
    (hdue : i ∈ due D e w.log) :
    i ∈ due D e w'.log := by
  rw [(exec_changes hx).log]
  by_cases ht : t = e.waiter
  · subst ht
    rw [due_cons_self]
    cases a with
    | wait e' => trivial
    | load j =>
        obtain ⟨u, hu, -⟩ := exec_iff.mp hx
        obtain ⟨rfl, -⟩ := Prod.mk.inj (Option.some.inj hu)
        show i ∈ if slot_status w.mem j = e.announces then due D e w.log else due D e w.log \ {j}
        split
        · exact hdue
        · rename_i hne
          exact ⟨hdue, fun heq => hne (heq ▸ hs)⟩
    | compare_exchange j expected new =>
        refine ⟨hdue, fun heq => ?_⟩
        obtain rfl : i = j := heq
        obtain ⟨hnew, hexpected⟩ := hc.swap i expected new rfl
        rcases Deployment.mem_of_swap hx with ⟨-, -, hmem⟩ | ⟨-, hne, -⟩
        · rw [hmem, slot_status_set_self hnew.lt] at hs'
          exact hnew.ne e hs'
        · exact hne (hs.trans (hexpected e rfl).symm)
    | _ => exact hdue
  · rw [due_cons_of_ne ht]
    exact hdue

/-- After a wait every slot is due. -/
theorem due_of_wait (hc : Conduct D w t (.wait e)) {b : Answer (.wait e)}
    (hx : (machine D.target).exec t (.wait e) c w = some (b, w')) : i ∈ due D e w'.log := by
  obtain ⟨rfl, -⟩ := hc.wait e rfl
  rw [(exec_changes hx).log, due_cons_self]
  trivial

/-- **Every action keeps the announcements.** -/
theorem announced_step (hA : Announced D e w) (hc : Conduct D w t a)
    (hx : (machine D.target).exec t a c w = some (r, w')) : Announced D e w' where
  author i hi hs := by
    rcases announced_cases hc hx hi hs with ⟨hpub, -, hwriter, -⟩ | ⟨hold, hwriter⟩
    · exact ⟨t, hpub, hwriter⟩
    · obtain ⟨u, hu, hw⟩ := hA.author i hi hold
      exact ⟨u, hu, hwriter.trans hw⟩
  noticed i hi u hs hwriter hsignal := by
    have hlog := (exec_changes hx).log
    rw [hlog] at hsignal
    rcases announced_cases hc hx hi hs with ⟨-, hnot, hself, hne⟩ | ⟨hold, hsame⟩
    · -- the slot has just been published, and the publisher has not signalled
      obtain rfl := Option.some.inj (hself.symm.trans hwriter)
      rcases signalled_cons hsignal with ⟨-, ha⟩ | hbefore
      · exact absurd ha (hne e)
      · exact absurd hbefore hnot
    · rcases (exec_changes hx).event e with hevent | ⟨-, hpos⟩ | ⟨rfl, -⟩
      · rcases signalled_cons hsignal with ⟨-, rfl⟩ | hbefore
        · obtain ⟨z, hz, rfl⟩ := exec_iff.mp hx
          obtain ⟨-, rfl⟩ := Prod.mk.inj (Option.some.inj hz)
          left
          show 0 < Function.update w.event e (signal_tokens D.target (w.event e)) e
          rw [Function.update_self]
          cases D.target <;> simp [signal_tokens]
        · rcases hA.noticed i hi u hold (hsame.symm.trans hwriter) hbefore with hpos | hdue
          · exact .inl (hevent ▸ hpos)
          · exact .inr (due_step hc hx hs hold hdue)
      · exact .inl hpos
      · exact .inr (due_of_wait hc hx)

end Steps

/-! ### All runs -/

section Conducts

variable {D : Deployment} {e : NamedEvent} {t : Thread} {a : Action} {w : World}

/-- The next action of a waiting thread. -/
theorem conduct_of_scan (h : (scan D e).allowed (due D e w.log) a) : Conduct D w e.waiter a where
  written j _ := by
    cases a with
    | write x bytes => exact h.elim
    | _ => exact Set.empty_disjoint _
  store i v ha := by
    subst ha
    exact .inl h
  swap i expected new ha := by
    subst ha
    refine ⟨h.2, fun e' he' => ?_⟩
    have heq : e = e' := by
      cases e <;> cases e' <;> first | rfl | cases he'
    exact heq ▸ h.1
  wait e' ha := by
    subst ha
    obtain ⟨rfl, hvisited⟩ := h
    exact ⟨rfl, hvisited⟩

/-- The next action of a publisher. -/
theorem conduct_of_publication (ht : e.Publisher t)
    (h : (publication D e).allowed (after (publication D e) false (history t w.log)) a) :
    Conduct D w t a where
  written j hj := by
    cases a with
    | write x bytes => exact h j hj
    | _ => exact Set.empty_disjoint _
  store i v ha := by
    subst ha
    rcases h with hv | ⟨hv, hq⟩
    · exact .inl hv
    · exact .inr ⟨e, hv, ht, after_publication hq⟩
  swap i expected new ha := by
    subst ha
    refine ⟨h, fun e' he' => ?_⟩
    cases ht <;> cases e' <;> cases he'
  wait e' ha := by
    subst ha
    exact h.elim

end Conducts

namespace Deployment

variable {D : Deployment} {discipline : Discipline bus Thread World Launch}
    {σ : Configuration bus Thread World}
  {e : NamedEvent} {t : Thread}

/-- The thread that waits for an event is on its scan. -/
theorem Reaches.scans (h : D.Reaches discipline σ) (e : NamedEvent) :
    (scan D e).Keeps (fun _ => Visited D) (due D e σ.state.log) (σ.program e.waiter) := by
  have hstart : Visited D ∅ := fun i _ => Set.notMem_empty i
  refine h.keeps hstart fun l w p w' hl q hq => ?_
  cases e with
  | request =>
      rcases launch_cases hl with ⟨call, -, ht, -⟩ | ⟨-, ht, -⟩ | ⟨l, -, ht, rfl,
        -⟩ | ⟨reply, inv, -, -, ht, -⟩
      · cases ht
      · cases ht
      · exact pass_scans h.sound.num_slots_eq (receive_slot_scans l) hq _
      · cases ht
  | response =>
      rcases launch_cases hl with ⟨call, -, ht, -⟩ | ⟨-, -, rfl, -⟩ | ⟨l, -, ht,
        -⟩ | ⟨reply, inv, -, -, ht, -⟩
      · cases ht
      · exact pass_scans rfl watch_slot_scans hq _
      · cases ht
      · cases ht

/-- A publisher stores first and signals then. -/
theorem Reaches.publishes (h : D.Reaches discipline σ) (ht : e.Publisher t) :
    (publication D e).Keeps (fun _ _ => True)
    (after (publication D e) false (history t σ.state.log)) (σ.program t) := by
  refine h.keeps_once (fun _ => True) trivial fun l w p w' hl => ?_
  obtain ⟨hnew, ⟨k, call, rfl, rfl⟩ | ⟨c, inv, reply, rfl, rfl⟩⟩ := launch_writer hl ht.writes
  · cases ht
    exact ⟨hnew, dispatch_program_publishes h.sound _ _⟩
  · cases ht
    exact ⟨hnew, respond_program_publishes h.sound _ _⟩

/-- The runs with one receive loop.  The handlers may answer as often as they like. -/
abbrev single_loop : Discipline bus Thread World Launch := .launching fun e _ => One_loop e

/-- There is no other receive loop. -/
theorem Reaches.other_loop (h : D.Reaches single_loop σ) {l : ℕ} (hl : l ≠ 0) :
    σ.program (.receive l) = .done () := by
  refine h.induct (P := fun τ => τ.program (.receive l) = .done ()) (fun _ _ _ _ _ => rfl)
    (fun τ t a next c r w' _ ih hp _ _ => ?_) fun τ e t p w' _ ih _ he hx => ?_
  · have hne : Thread.receive l ≠ t := by
      rintro rfl
      cases hp.symm.trans ih
    exact (Function.update_of_ne hne _ _).trans ih
  · have hne : Thread.receive l ≠ t := by
      rintro rfl
      rcases launch_cases hx with ⟨call, -, ht, -⟩ | ⟨-, ht, -⟩ | ⟨j, rfl, ht,
        -⟩ | ⟨reply, inv, -, -, ht, -⟩
      · cases ht
      · cases ht
      · exact hl ((Thread.receive.inj ht).trans he)
      · cases ht
    exact (Function.update_of_ne hne _ _).trans ih

/-- **Every thread keeps to its conduct.** -/
theorem Reaches.conduct (h : D.Reaches single_loop σ) {a : Action}
    {rest : Answer a → Program bus Unit} (hp : σ.program t = .act a rest) :
    Conduct D σ.state t a := by
  have hscan : ∀ e : NamedEvent, e.waiter = t → Conduct D σ.state t a := by
    rintro e rfl
    have hkeeps := h.scans e
    rw [hp] at hkeeps
    exact conduct_of_scan hkeeps.1
  have hpublish : ∀ e : NamedEvent, e.Publisher t → Conduct D σ.state t a := by
    intro e he
    have hkeeps := h.publishes he
    rw [hp] at hkeeps
    exact conduct_of_publication he hkeeps.1
  cases t with
  | dispatch k => exact hpublish .request (.dispatch k)
  | respond c => exact hpublish .response (.respond c)
  | watcher => exact hscan .response rfl
  | receive l =>
      by_cases hl : l = 0
      · exact hscan .request (by rw [hl]; rfl)
      · cases hp.symm.trans (h.other_loop hl)

/-- The announcements hold in every state that a run reaches. -/
theorem Reaches.announced (h : D.Reaches single_loop σ) (e : NamedEvent) :
    Announced D e σ.state := by
  refine h.induct (P := fun τ => Announced D e τ.state) (fun mem names segments next hsetup => ?_)
    (fun τ t a rest c r w' hτ ih hp _ hx => announced_step ih (hτ.conduct hp) hx)
      fun τ l t p w' _ ih _ _ hx => ?_
  · have hfree : ∀ i < D.num_slots, slot_status mem i ≠ e.announces := by
      intro i hi
      have hstatus : slot_status mem i = SLOT_FREE := (hsetup.fresh names segments next).status i hi
      rw [hstatus]
      exact unannounced_free.ne e
    exact ⟨fun i hi hs => absurd hs (hfree i hi), fun i hi _ hs => absurd hs (hfree i hi)⟩
  · obtain ⟨calls, replies, rfl⟩ := launch_eq hx
    exact ⟨ih.author, ih.noticed⟩

/-- When a thread waits for an event that has no token, then a slot with the announced status has it
from a publisher that has not signalled yet. -/
def Awaits_signals (D : Deployment) (e : NamedEvent) (σ : Configuration bus Thread World) : Prop :=
  ∀ rest, σ.program e.waiter = .act (.wait e) rest → σ.state.event e = 0 →
    ∀ i < D.num_slots, slot_status σ.state.mem i = e.announces →
      ∃ t, e.Publisher t ∧ status_writer σ.state.log i = some t ∧ ¬ Signalled σ.state.log t e

/-- **No lost wake-up**, with an auto-reset flag as with a counting semaphore: in every state that a
run with one receive loop reaches, when the receive loop waits and the request event has no token,
no slot is READY whose dispatch has signalled; and when the watcher waits and the response event has
no token, no slot is DONE whose `send_response` has signalled. -/
theorem no_lost_wakeup (h : D.Reaches single_loop σ) :
    D.Awaits_signals .request σ ∧ D.Awaits_signals .response σ := by
  have hall : ∀ e : NamedEvent, D.Awaits_signals e σ := by
    intro e rest hp htoken i hi hs
    have hA := h.announced e
    obtain ⟨t, ht, hwriter⟩ := hA.author i hi hs
    refine ⟨t, ht, hwriter, fun hsignal => ?_⟩
    rcases hA.noticed i hi t hs hwriter hsignal with hpos | hdue
    · exact absurd htoken (Nat.ne_of_gt hpos)
    · exact ((h.conduct hp).wait e rfl).2 i hi hdue
  exact ⟨hall .request, hall .response⟩

/-- The receive loop waits while a dispatch call that has published its slot has not signalled
yet. -/
theorem no_lost_wakeup_small : ∃ σ : Configuration bus Thread World,
    small_total_bus.Reaches single_loop σ ∧ slot_status σ.state.mem 0 = SLOT_READY ∧
      σ.state.event .request = 0 ∧
      (∃ rest, σ.program (.receive 0) = .act (.wait .request) rest) ∧
      small_total_bus.Awaits_signals .request σ ∧ small_total_bus.Awaits_signals .response σ := by
  have hrun : (small_total_bus.system.play single_loop
      ([.launch (.dispatch (small_call "a" []))] ++ small_steps (.dispatch 0) 12 ++
        [.launch (.receive 0)] ++ small_steps (.receive 0) 1) (Start small_start)).map
      (fun σ => (slot_status σ.state.mem 0, σ.state.event .request,
        match σ.program (.receive 0) with
        | .act (.wait .request) _ => true
        | _ => false)) = some (SLOT_READY, 0, true) := by decide +kernel
  obtain ⟨σ, hplay, hσ⟩ := Option.map_eq_some_iff.mp hrun
  obtain ⟨hready, hσ⟩ := Prod.mk.inj hσ
  obtain ⟨htoken, hwaits⟩ := Prod.mk.inj hσ
  have hreach : small_total_bus.Reaches single_loop σ := small_bus_reaches hplay
  refine ⟨σ, hreach, hready, htoken, ?_, no_lost_wakeup hreach⟩
  split at hwaits
  · exact ⟨_, by assumption⟩
  · cases hwaits

end Deployment

end SlotBus
