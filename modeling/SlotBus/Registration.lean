import SlotBus.Retry

/-!
# Registered requests

`dispatch` registers the receiver of a request after it has published the slot.  A worker, its
handler and the watcher that are quick enough find no receiver.

* `response_without_receiver` — a run in which they do;
* `Looks` — where the watcher's programs look up a receiver, and what they do with it;
* `receiver_found_iff` — a receiver is registered exactly if its own dispatch call has got that far:
  nobody else removes it.
-/

namespace SlotBus

open ByteMemory AtomicProgram AtomicProgram.Program

/-! ### What a look-up should find -/

/-- Dispatch call `k` waits in the pending map under its id. -/
def Registered (w : World) (k : ℕ) : Prop :=
  ∃ call, w.calls[k]? = some call ∧ w.pending call.req_id = some k

/-- Slot `i` holds the request of dispatch call `k`: it is READY, CLAIMED or DONE. -/
def Holds_request (w : World) (i k : ℕ) : Prop :=
  (owner w.log i).call = some k ∧ owner w.log i ≠ .writing k

/-- The watcher has read the response to dispatch call `k`, has given the slot back, and is about to
look up the receiver. -/
def Looks_up (σ : Configuration bus Thread World) (k : ℕ) : Prop :=
  (∃ id rest, σ.program .watcher = .act (.pending_remove id) rest) ∧
    ∃ n c, collected σ.state.log = some (n, k, c)

/-- Whenever the watcher looks up a receiver it is there. -/
def Finds_receiver (σ : Configuration bus Thread World) : Prop :=
  ∀ k, Looks_up σ k → Registered σ.state k

/-- A single receive loop. -/
def One_loop (e : Launch) : Prop :=
  match e with
  | .receive l => l = 0
  | .dispatch _ | .watcher | .respond _ => True

instance (e : Launch) : Decidable (One_loop e) :=
  match e with
  | .receive l => inferInstanceAs (Decidable (l = 0))
  | .dispatch _ | .watcher | .respond _ => .isTrue trivial

/-- The worker and the watcher overtake a dispatch call between the publication of its slot and the
registration of its receiver. -/
theorem response_without_receiver : ∃ σ : Configuration bus Thread World,
    small_total_bus.Reaches (.launching fun e w => Answers_once e w ∧ Fresh_id e w ∧ One_loop e) σ ∧
      ¬ Finds_receiver σ := by
  have hrun : (small_total_bus.system.play
      (.launching fun e w => Answers_once e w ∧ Fresh_id e w ∧ One_loop e)
      ([.launch (.dispatch (small_call "a" []))] ++ small_steps (.dispatch 0) 12 ++
        [.launch (.receive 0), .run (.receive 0) ⟨false, ""⟩, .run (.receive 0) ⟨true, ""⟩] ++
        small_steps (.receive 0) 9 ++
        [.launch (.respond (small_reply 0 []))] ++ small_steps (.respond 0) 11 ++
        [.launch .watcher] ++ small_steps .watcher 12) (Start small_start)).map
      (fun σ => ((match σ.program .watcher with
        | .act (.pending_remove _) _ => true
        | _ =>
            false), collected σ.state.log, σ.state.calls.map fun call =>
              σ.state.pending call.req_id)) =
      some (true, some (0, 0, 0), [none]) := by decide +kernel
  obtain ⟨σ, hplay, hσ⟩ := Option.map_eq_some_iff.mp hrun
  obtain ⟨hlook, hσ⟩ := Prod.mk.inj hσ
  obtain ⟨hcollected, hpending⟩ := Prod.mk.inj hσ
  refine ⟨σ, small_bus_reaches hplay, fun hfinds => ?_⟩
  have hlooks : Looks_up σ 0 := by
    refine ⟨?_, 0, 0, hcollected⟩
    split at hlook
    · exact ⟨_, _, by assumption⟩
    · cases hlook
  obtain ⟨call, hcall, hk⟩ := hfinds 0 hlooks
  have hmem : some 0 ∈ [(none : Option ℕ)] := by
    rw [← hk, ← hpending]
    exact List.mem_map_of_mem (List.mem_of_getElem? hcall)
  simp at hmem

/-! ### The look-ups of the watcher -/

/-- Where the watcher is with the slot it has visited last. -/
inductive Lookup where
  | away
  | collected
  | found (tx : ℕ)

/-- The watcher looks up a receiver only after it has given a slot back, and only once; a receiver
that it finds it resolves at once. -/
def lookup : Typestate bus Lookup where
  allowed
    | .found tx, .send tx' _ => tx' = tx
    | .found _, _ => False
    | .away, .pending_remove _ => False
    | _, _ => True
  next
    | _, .compare_exchange _ _ _, true => .collected
    | _, .compare_exchange _ _ _, false => .away
    | _, .pending_remove _, some tx => .found tx
    | _, .pending_remove _, none => .away
    | .found _, .send _ _, _ => .away
    | q, _, _ => q

/-- The watcher is not about to resolve a receiver. -/
def Lookup.Settled (q : Lookup) : Prop := ∀ tx, q ≠ .found tx

theorem lookup_bystander {q : Lookup} (hq : q.Settled) {a : Action} (ha : a.Bystander) :
    lookup.allowed q a ∧ ∀ r, lookup.next q a r = q := by
  cases q with
  | found tx => exact absurd rfl (hq tx)
  | _ => cases a <;> first | exact ha.elim | exact ⟨trivial, fun _ => rfl⟩

theorem keeps_bystander {α : Type} {p : Program bus α}
    (hp : p.Confined Action.Bystander) {q : Lookup} (hq : q.Settled) {post : α → Lookup → Prop}
    (hpost : ∀ v, post v q) : lookup.Keeps post q p :=
  .of_confined hp (fun _ ha => lookup_bystander hq ha) hpost

theorem keeps_act {α : Type} {a : Action} {next : Answer a → Program bus α}
    (ha : a.Bystander) {q : Lookup} (hq : q.Settled) {post : α → Lookup → Prop}
    (h : ∀ r, lookup.Keeps post q (next r)) :
    lookup.Keeps post q (.act a next) :=
  ⟨(lookup_bystander hq ha).1, fun r => ((lookup_bystander hq ha).2 r).symm ▸ h r⟩

theorem watch_slot_keeps (D : Deployment) (i : ℕ) {q : Lookup} (hq : q.Settled) :
    lookup.Keeps (fun _ => Lookup.Settled) q (D.watch_slot i) := by
  unfold Deployment.watch_slot
  refine keeps_act (a := .load i) trivial hq fun (status : ℕ) => ?_
  show lookup.Keeps _ q (if status ≠ SLOT_DONE then _ else _)
  split
  · exact hq
  · refine Typestate.Keeps.bind (p := read_req_id i)
      (keeps_bystander (p := read_req_id i) ⟨trivial, fun _ => trivial⟩ hq fun req_id => ?_)
    refine Typestate.Keeps.bind
      (p := (read_response D.response_codec D.target D.hub_region i D.config).run)
      (keeps_bystander ((read_response_confined _).mono fun _ ha => ha.bystander) hq fun result =>
        ?_)
    refine ⟨?_, fun (b : Bool) => ?_⟩
    · cases q with
      | found tx => exact absurd rfl (hq tx)
      | _ => trivial
    · cases b with
      | false => exact fun tx => nofun
      | true =>
          refine ⟨trivial, fun _ => ?_⟩
          cases result with
          | error e => exact fun tx => nofun
          | ok answer =>
              obtain ⟨status, m, body⟩ := answer
              refine ⟨trivial, fun (found : Option ℕ) => ?_⟩
              cases found with
              | none => exact fun tx => nofun
              | some tx => exact ⟨rfl, fun _ tx => nofun⟩

theorem watcher_pass_keeps (D : Deployment) {q : Lookup} (hq : q.Settled) :
    lookup.Keeps (fun _ => Lookup.Settled) q D.watcher_pass := by
  have hscan : ∀ slots (q : Lookup), q.Settled →
      lookup.Keeps (fun _ => Lookup.Settled) q (Deployment.for_each D.watch_slot slots) := by
    intro slots
    induction slots with
    | nil => exact fun q hq => hq
    | cons i rest ih =>
        exact fun q hq => Typestate.Keeps.bind ((watch_slot_keeps D i hq).mono fun _ => ih)
  unfold Deployment.watcher_pass
  refine keeps_act (a := .running .hub) trivial hq fun (b : Bool) => ?_
  cases b with
  | false => exact hq
  | true => exact keeps_act (a := .wait .response) trivial hq fun _ => hscan _ q hq

/-- Where the watcher is, by its history. -/
def watching (log : List Entry) : Lookup := after lookup .away (history .watcher log)

/-- In every run the watcher keeps to its look-ups. -/
theorem Deployment.Reaches.lookup_keeps {D : Deployment}
    {discipline : Discipline bus Thread World Launch} {σ : Configuration bus Thread World}
    (h : D.Reaches discipline σ) :
    lookup.Keeps (fun _ => Lookup.Settled) (watching σ.state.log) (σ.program .watcher) := by
  refine h.keeps (fun tx => nofun) fun e w p w' hl q hq => ?_
  rcases Deployment.launch_cases hl with ⟨call, -, ht, -⟩ | ⟨-, -, rfl, -⟩ | ⟨l, -, ht, -⟩ |
    ⟨reply, inv, -, -, ht, -⟩
  · cases ht
  · exact watcher_pass_keeps D hq
  · cases ht
  · cases ht

/-! ### The pending map of a run -/

/-- Dispatch call `k` has registered its receiver. -/
def Inserted (w : World) (k : ℕ) : Prop :=
  ∃ e ∈ w.log, e.thread = .dispatch k ∧ ∃ id, e.action = .pending_insert id k

/-- The watcher has looked up the receiver of dispatch call `k`. -/
def looked_up (k : ℕ) : List Entry → Prop
  | [] => False
  | ⟨.watcher, .pending_remove _, _⟩ :: log =>
      (∃ n c, collected log = some (n, k, c)) ∨ looked_up k log
  | _ :: log => looked_up k log

/-- The slot of dispatch call `k` has been given back. -/
def Gone (w : World) (k : ℕ) : Prop :=
  phase w.log (.dispatch k) ≠ .idle ∧ ∀ i, (owner w.log i).call ≠ some k

/-- **Nobody but the watcher removes a receiver, and only after it has collected the response.** -/
structure Receivers (w : World) : Prop where
  inserted : ∀ id k, w.pending id = some k → Inserted w k
  kept : ∀ (k : ℕ) call, w.calls[k]? = some call → Inserted w k →
    w.pending call.req_id = some k ∨ looked_up k w.log
  collected_gone : ∀ n k c, collected w.log = some (n, k, c) → Gone w k
  looked_gone : ∀ k, looked_up k w.log → Gone w k
  once : ∀ n k c, collected w.log = some (n, k, c) → looked_up k w.log → watching w.log ≠ .collected

section Steps

variable {D : Deployment} {t : Thread} {a : Action} {x : Choice} {w w' : World}
    {r : Answer a} {k tx : ℕ}
  {id : String}

theorem inserted_step (h : Inserted w k) (hx : (machine D.target).exec t a x w = some (r, w')) :
    Inserted w' k := by
  obtain ⟨e, he, heq⟩ := h
  exact ⟨e, (exec_changes hx).log ▸ List.mem_cons_of_mem _ he, heq⟩

theorem looked_up_cons {log : List Entry} (h : looked_up k log) :
    looked_up k (⟨t, a, r⟩ :: log) := by
  cases t <;> first | exact h | (cases a <;> first | exact h | exact .inr h)

/-- Only a look-up by the watcher adds one. -/
theorem looked_up_cons_iff {log : List Entry} (h : t ≠ .watcher ∨ ∀ id, a ≠ .pending_remove id) :
    looked_up k (⟨t, a, r⟩ :: log) ↔ looked_up k log := by
  cases t with
  | watcher => cases a <;> first | rfl | exact absurd rfl (h.resolve_left (not_not_intro rfl) _)
  | _ => rfl

theorem Phase.Follows.ne_idle {p q : Phase} (h : p.Follows q) : q ≠ .idle := by
  cases h <;> nofun

/-- A step leaves the phases alone, or carries its thread on. -/
theorem phase_of_step (hm : D.Move t a w w') :
    phase w'.log = phase w.log ∨ ∃ p, p ≠ .idle ∧
      phase w'.log = Function.update (phase w.log) t p := by
  cases hm with
  | still hledger _ => exact .inl (congrArg Ledger.phase hledger)
  | @follow p hp hledger _ => exact .inr ⟨p, hp.ne_idle, congrArg Ledger.phase hledger⟩
  | @turn i o p _ _ hturn hledger _ _ _ =>
      exact .inr ⟨p, by cases hturn <;> nofun, congrArg Ledger.phase hledger⟩
  | @invoke l k i _ _ _ _ hledger _ _ _ =>
      exact .inr ⟨.released i, nofun, congrArg Ledger.phase hledger⟩

/-- A thread that has begun never becomes idle again. -/
theorem phase_ne_idle_step (hm : D.Move t a w w') {u : Thread} (hu : phase w.log u ≠ .idle) :
    phase w'.log u ≠ .idle := by
  rcases phase_of_step hm with heq | ⟨p, hp, heq⟩
  · rwa [heq]
  · rw [heq]
    by_cases hut : u = t
    · rw [hut, Function.update_self]
      exact hp
    · rwa [Function.update_of_ne hut]

/-- Nobody but an idle dispatch call brings its request into a slot. -/
theorem call_of_step (hm : D.Move t a w w') {i : ℕ} (hk : (owner w'.log i).call = some k) :
    (∃ j, (owner w.log j).call = some k) ∨ phase w.log (.dispatch k) = .idle := by
  rcases hm.owner_cases with heq | ⟨j, o, p, -, -, hturn, heq, -⟩ | ⟨l, k', j, -, hj, -, heq⟩
  · exact .inl ⟨i, heq ▸ hk⟩
  · by_cases hij : i = j
    · subst hij
      rw [heq, Function.update_self] at hk
      have hold : ∀ {o' : Owner}, w.ledger.owner i = o' → owner w.log i = o' := fun h => h
      cases hturn with
      | claim h hidle =>
          obtain rfl := Option.some.inj hk
          exact .inr hidle
      | publish h => exact .inl ⟨i, by rw [hold h]; exact hk⟩
      | take h hidle => exact .inl ⟨i, by rw [hold h]; exact hk⟩
      | answer h hc => exact .inl ⟨i, by rw [hold h]; exact hk⟩
      | _ => cases hk
    · rw [heq, Function.update_of_ne hij] at hk
      exact .inl ⟨i, hk⟩
  · by_cases hij : i = j
    · subst hij
      rw [heq, Function.update_self] at hk
      exact .inl ⟨i, by rw [hj]; exact hk⟩
    · rw [heq, Function.update_of_ne hij] at hk
      exact .inl ⟨i, hk⟩

theorem gone_step (hm : D.Move t a w w') (h : Gone w k) : Gone w' k := by
  refine ⟨phase_ne_idle_step hm h.1, fun i hi => ?_⟩
  rcases call_of_step hm hi with ⟨j, hj⟩ | hidle
  · exact h.2 j hj
  · exact h.1 hidle

/-- Either the watcher has collected nothing new, or it has just given a slot back. -/
theorem collected_cases (hI : D.Invariant w) (hl : D.Legal w t a)
    (hx : (machine D.target).exec t a x w = some (r, w')) :
    (collected w'.log = collected w.log ∧
        (t = .watcher → ∀ i e n, a = .compare_exchange i e n → watching w'.log = .away)) ∨
      ∃ i n k c, t = .watcher ∧ owner w.log i = .done n k c ∧
        a = .compare_exchange i SLOT_DONE SLOT_FREE ∧
        collected w'.log = some (n, k, c) ∧
          owner w'.log = Function.update (owner w.log) i .free := by
  by_cases ht : t = .watcher
  · subst ht
    by_cases ha : a.Silent
    · refine .inl ⟨by rw [(exec_changes hx).log, collected_silent ha], ?_⟩
      rintro - i e n rfl
      exact ha.elim
    · cases hl with
      | bystander hb => exact absurd hb.silent.1 ha
      | own ht _ => cases ht
      | @collect i hi =>
          rcases Deployment.mem_of_swap hx with ⟨rfl, hs, -⟩ | ⟨rfl, -, -⟩
          · obtain ⟨n, k, c, ho⟩ := Owner.eq_done ((hI.status i hi).symm.trans hs)
            refine .inr ⟨i, n, k, c, rfl, ho, rfl, ?_, ?_⟩
            · rw [(exec_changes hx).log]
              exact collected_of_done ho _ _
            · rw [(exec_changes hx).log]
              rfl
          · refine .inl ⟨by rw [(exec_changes hx).log]; rfl, fun _ _ _ _ _ => ?_⟩
            rw [(exec_changes hx).log]
            rfl
      | _ => exact absurd trivial ha
  · exact .inl ⟨by rw [(exec_changes hx).log, collected_of_ne_watcher ht], fun h => absurd h ht⟩

/-- The request that was in a slot is in no other. -/
theorem gone_of_collect (hI : D.Invariant w) (hm : D.Move t a w w') {i n c : ℕ}
    (ho : owner w.log i = .done n k c)
    (hfree : owner w'.log = Function.update (owner w.log) i .free) :
    Gone w' k := by
  have hslot : ∀ j, (owner w.log j).call = some k → (phase w.log (.dispatch k)).slot = some j :=
    fun j => hI.ledger.claimed j k
  have hi : (owner w.log i).call = some k := by rw [ho]; rfl
  refine ⟨phase_ne_idle_step hm fun hidle => ?_, fun j hj => ?_⟩
  · have := hslot i hi
    rw [hidle] at this
    cases this
  · rw [hfree] at hj
    by_cases hij : j = i
    · rw [hij, Function.update_self] at hj
      cases hj
    · rw [Function.update_of_ne hij] at hj
      exact hij (Option.some.inj ((hslot j hj).symm.trans (hslot i hi)))

/-- Registering a receiver, as a legal action does it. -/
theorem legal_register (hl : D.Legal w t (.pending_insert id tx)) :
    t = .dispatch tx ∧ ∃ call, w.calls[tx]? = some call ∧ call.req_id = id := by
  cases hl with
  | bystander hb => exact hb.elim
  | own _ ho => exact ho.elim
  | register hcall _ => exact ⟨rfl, _, hcall, rfl⟩

/-- Looking up a receiver, as a legal action does it. -/
theorem legal_look_up (hI : D.Invariant w) (hl : D.Legal w t (.pending_remove id)) :
    t = .watcher ∧ ∃ n k c call, collected w.log = some (n, k, c) ∧ w.calls[k]? = some call ∧
      (FitsIdField call.req_id → id = call.req_id) := by
  cases hl with
  | bystander hb => exact hb.elim
  | own _ ho => exact ho.elim
  | @look_up k c _ h hid =>
      obtain ⟨n, reply, hcollected, -, -, hreceived⟩ := h
      obtain ⟨inv, -, call, hcall, -⟩ := hI.invoked n k hreceived
      exact ⟨rfl, n, k, c, call, hcollected, hcall, hid call hcall⟩

theorem Receivers.inserted_step (hw : Receivers w) (hl : D.Legal w t a)
    (hx : (machine D.target).exec t a x w = some (r, w')) (id : String)
    (hid : w'.pending id = some k) :
    Inserted w' k := by
  have hch := exec_changes hx
  rcases hch.pending id with heq | ⟨-, hnone⟩ | ⟨tx, rfl, heq⟩
  · exact SlotBus.inserted_step (hw.inserted id k (heq ▸ hid)) hx
  · rw [hnone] at hid
    cases hid
  · obtain rfl := Option.some.inj (heq.symm.trans hid)
    obtain ⟨rfl, -⟩ := legal_register hl
    exact ⟨_, hch.log ▸ List.mem_cons_self, rfl, id, rfl⟩

theorem Receivers.kept_step (hw : Receivers w) (hI : D.Invariant w) (hids : w.ProperIds)
    (hl : D.Legal w t a) (hx : (machine D.target).exec t a x w = some (r, w')) {call : DispatchCall}
    (hcall : w'.calls[k]? = some call) (hk : Inserted w' k) :
    w'.pending call.req_id = some k ∨ looked_up k w'.log := by
  have hch := exec_changes hx
  rw [hch.calls] at hcall
  obtain ⟨e, he, ht, id, ha⟩ := hk
  rw [hch.log] at he
  rcases List.mem_cons.mp he with rfl | he
  · -- the call registers itself
    obtain rfl : a = .pending_insert id k := ha
    obtain ⟨-, other, hother, rfl⟩ := legal_register hl
    obtain rfl := Option.some.inj (hother.symm.trans hcall)
    refine .inl ?_
    obtain ⟨u, hu, rfl⟩ := exec_iff.mp hx
    obtain ⟨-, rfl⟩ := Prod.mk.inj (Option.some.inj hu)
    exact Function.update_self ..
  · rcases hw.kept k call hcall ⟨e, he, ht, id, ha⟩ with hold | hold
    · rcases hch.pending call.req_id with heq | ⟨rfl, -⟩ | ⟨tx, rfl, heq⟩
      · exact .inl (heq.trans hold)
      · -- the watcher removes the receiver of the call whose response it has collected
        obtain ⟨rfl, n, j, c, other, hcollected, hother, hid⟩ := legal_look_up hI hl
        obtain rfl :=
          hids.distinct j k other call hother hcall (hid (hids.fits j other hother)).symm
        exact .inr (hch.log ▸ .inl ⟨n, c, hcollected⟩)
      · obtain ⟨-, other, hother, hid⟩ := legal_register hl
        obtain rfl := hids.distinct tx k other call hother hcall hid
        exact .inl heq
    · exact .inr (hch.log ▸ looked_up_cons hold)

theorem Receivers.looked_gone_step (hw : Receivers w) (hm : D.Move t a w w')
    (hx : (machine D.target).exec t a x w = some (r, w')) (hk : looked_up k w'.log) :
    Gone w' k := by
  rw [(exec_changes hx).log] at hk
  by_cases hsame : t ≠ .watcher ∨ ∀ id, a ≠ .pending_remove id
  · exact gone_step hm (hw.looked_gone k ((looked_up_cons_iff hsame).mp hk))
  · push Not at hsame
    obtain ⟨rfl, id, rfl⟩ := hsame
    rcases hk with ⟨n, c, hcollected⟩ | hold
    · exact gone_step hm (hw.collected_gone n k c hcollected)
    · exact gone_step hm (hw.looked_gone k hold)

theorem Receivers.collected_gone_step (hw : Receivers w) (hI : D.Invariant w) (hl : D.Legal w t a)
    (hm : D.Move t a w w') (hx : (machine D.target).exec t a x w = some (r, w')) {n c : ℕ}
    (hk : collected w'.log = some (n, k, c)) : Gone w' k := by
  rcases collected_cases hI hl hx with ⟨heq, -⟩ | ⟨i, n', k', c', -, ho, -, hnew, hfree⟩
  · exact gone_step hm (hw.collected_gone n k c (heq ▸ hk))
  · obtain ⟨rfl, rfl, rfl⟩ : n' = n ∧ k' = k ∧ c' = c := by simpa using hnew.symm.trans hk
    exact gone_of_collect hI hm ho hfree

/-- Only a compare-exchange begins a look-up. -/
theorem watching_collected {log : List Entry} (h : watching (⟨t, a, r⟩ :: log) = .collected)
    (ha : t ≠ .watcher ∨ ∀ i e n, a ≠ .compare_exchange i e n) :
    watching log = .collected ∧ (t ≠ .watcher ∨ ∀ id, a ≠ .pending_remove id) := by
  by_cases ht : t = .watcher
  · subst ht
    have hne := ha.resolve_left (not_not_intro rfl)
    rw [watching, history_cons_self] at h
    change lookup.next (watching log) a r = .collected at h
    cases a with
    | compare_exchange i e n => exact absurd rfl (hne i e n)
    | pending_remove id =>
        have hr : ∀ found :
            Option ℕ, lookup.next (watching log) (.pending_remove id) found ≠ .collected := by
          intro found
          cases found <;> nofun
        exact absurd h (hr r)
    | send tx response =>
        cases hq : watching log with
        | collected => exact ⟨rfl, .inr nofun⟩
        | _ =>
            rw [hq] at h
            cases h
    | _ =>
        cases hq : watching log with
        | collected => exact ⟨rfl, .inr nofun⟩
        | _ =>
            rw [hq] at h
            cases h
  · rw [watching, history_cons_of_ne ht] at h
    exact ⟨h, .inl ht⟩

theorem Receivers.once_step (hw : Receivers w) (hI : D.Invariant w) (hl : D.Legal w t a)
    (hx : (machine D.target).exec t a x w = some (r, w')) {n c : ℕ}
    (hc : collected w'.log = some (n, k, c)) (hk : looked_up k w'.log) :
    watching w'.log ≠ .collected := by
  intro hwatching
  have hlog := (exec_changes hx).log
  rcases collected_cases hI hl hx with ⟨heq, haway⟩ | ⟨i, n', k', c', rfl, ho, rfl, hnew, -⟩
  · by_cases hswap : t ≠ .watcher ∨ ∀ i e n, a ≠ .compare_exchange i e n
    · rw [hlog] at hwatching hk
      obtain ⟨hold, hsame⟩ := watching_collected hwatching hswap
      exact hw.once n k c (heq ▸ hc) ((looked_up_cons_iff hsame).mp hk) hold
    · -- a compare-exchange that fails
      push Not at hswap
      obtain ⟨rfl, i, e, m, rfl⟩ := hswap
      rw [haway rfl i e m rfl] at hwatching
      cases hwatching
  · obtain ⟨rfl, rfl, rfl⟩ : n' = n ∧ k' = k ∧ c' = c := by simpa using hnew.symm.trans hc
    rw [hlog, looked_up_cons_iff (.inr fun id h => by cases h)] at hk
    exact (hw.looked_gone _ hk).2 i (by rw [ho]; rfl)

end Steps

/-! ### Registered receivers are found -/

section Runs

variable {D : Deployment} {discipline : Discipline bus Thread World Launch}
    {σ : Configuration bus Thread World}

theorem Receivers.of_log_eq_nil {w : World} (hlog : w.log = [])
    (hpending : ∀ id, w.pending id = none) :
    Receivers w where
  inserted id k hk := by
    rw [hpending] at hk
    cases hk
  kept k call _ hk := by
    obtain ⟨e, he, -⟩ := hk
    rw [hlog] at he
    cases he
  collected_gone n k c hk := by
    rw [hlog] at hk
    cases hk
  looked_gone k hk := by
    rw [hlog] at hk
    exact hk.elim
  once n k c hk := by
    rw [hlog] at hk
    cases hk

/-- More calls and replies. -/
theorem Receivers.append {w : World} (hw : Receivers w) (hI : D.Invariant w)
    (calls : List DispatchCall) (replies : List Reply) :
    Receivers { w with calls := w.calls ++ calls, replies := w.replies ++ replies } where
  inserted := hw.inserted
  kept k call hcall hk := by
    obtain ⟨e, he, ht, -⟩ := id hk
    have hlt : k < w.calls.length := by
      have := hI.known e he
      rwa [ht] at this
    rw [List.getElem?_append_left hlt] at hcall
    exact hw.kept k call hcall hk
  collected_gone := hw.collected_gone
  looked_gone := hw.looked_gone
  once := hw.once

theorem Deployment.Reaches.receivers (h : D.Reaches discipline σ)
    (hadmits : ∀ e w, discipline.launch e w → Deployment.Admits w e)
    (hfresh : ∀ e w, discipline.launch e w → Fresh_id e w) : Receivers σ.state := by
  refine h.induct (P := fun τ => Receivers τ.state)
    (fun _ _ _ _ _ => .of_log_eq_nil rfl fun _ => rfl) (fun τ t a rest c r w' hτ ih hp _ hx => ?_)
    fun τ e t p w' hτ ih _ _ hx => ?_
  · have hσ := hτ.wellBehaved hadmits
    have hI := hσ.invariant
    have hl : D.Legal τ.state t a := (hσ.legal hp).2
    have hm := hl.move h.sound hI hx
    exact ⟨fun id k => ih.inserted_step hl hx id, fun k call =>
      ih.kept_step hI (hτ.properIds hfresh) hl hx,
      fun n k c => ih.collected_gone_step hI hl hm hx, fun k => ih.looked_gone_step hm hx,
      fun n k c => ih.once_step hI hl hx⟩
  · obtain ⟨calls, replies, rfl⟩ := Deployment.launch_eq hx
    exact ih.append (hτ.wellBehaved hadmits).invariant calls replies

/-- As long as a receiver has not been looked up, it is registered exactly if it has been
inserted. -/
theorem Receivers.registered_iff {w : World} (hw : Receivers w) {k : ℕ} {call : DispatchCall}
    (hcall : w.calls[k]? = some call) (hk : ¬ looked_up k w.log) :
    Registered w k ↔ Inserted w k := by
  constructor
  · rintro ⟨other, -, hpending⟩
    exact hw.inserted _ k hpending
  · exact fun hinserted => ⟨call, hcall, (hw.kept k call hcall hinserted).resolve_right hk⟩

/-- The watcher is about to resolve the receiver of dispatch call `k` with the response that answers
its request. -/
def Resolves (D : Deployment) (σ : Configuration bus Thread World) (k : ℕ) : Prop :=
  ∃ response rest n c, σ.program .watcher = .act (.send k response) rest ∧
    collected σ.state.log = some (n, k, c) ∧ D.Answers σ.state c response

/-- A receiver that the watcher has found is resolved next. -/
theorem resolves_of_found (h : D.Reaches discipline σ)
    (hadmits : ∀ e w, discipline.launch e w → Deployment.Admits w e)
    (hfresh : ∀ e w, discipline.launch e w → Fresh_id e w) {k : ℕ}
    (hfound : watching σ.state.log = .found k) : Resolves D σ k := by
  have hkeeps := h.lookup_keeps
  have hσ := h.wellBehaved hadmits
  rw [hfound] at hkeeps
  cases hp : σ.program .watcher with
  | done v =>
      rw [hp] at hkeeps
      exact absurd rfl (hkeeps k)
  | act a rest =>
      rw [hp] at hkeeps
      have hallowed : lookup.allowed (.found k) a := hkeeps.1
      have hl : D.Legal σ.state .watcher a := (hσ.legal hp).2
      cases a with
      | send tx response =>
          obtain rfl : tx = k := hallowed
          cases hl with
          | bystander hb => exact hb.elim
          | own _ ho => exact ho.elim
          | @deliver j c _ _ hcollected htx hanswers =>
              obtain ⟨n, reply, hcollected, -⟩ := hcollected
              obtain rfl := htx (h.properIds hfresh)
              exact ⟨response, rest, n, c, hp, hcollected, hanswers⟩
      | _ => exact hallowed.elim

/-- **Exactly when a response finds its receiver.**  When the watcher looks up the receiver of a
dispatch call whose response it has collected, the receiver is registered if and only if the call
has performed its own insertion by then; in that case the receiver is resolved next with the answer
to its request.  And while a slot is READY, CLAIMED or DONE, the receiver of its request is
registered if and only if the call has got that far. -/
theorem receiver_found_iff (h : D.Reaches (.launching fun e w => Answers_once e w ∧ Fresh_id e w) σ)
    {k : ℕ} :
    (Looks_up σ k → (Registered σ.state k ↔ Inserted σ.state k) ∧
        (Inserted σ.state k → ∀ x σ', D.system.next (.run .watcher x) σ = some σ' →
          Resolves D σ' k)) ∧
      ∀ i, Holds_request σ.state i k → (Registered σ.state k ↔ Inserted σ.state k) := by
  have hadmits : ∀ e w, Answers_once e w ∧ Fresh_id e w → Deployment.Admits w e :=
    fun e w he => he.1.admits
  have hfresh : ∀ e w, Answers_once e w ∧ Fresh_id e w → Fresh_id e w := fun e w he => he.2
  have hσ := h.wellBehaved hadmits
  have hI := hσ.invariant
  have hw := h.receivers hadmits hfresh
  constructor
  · rintro ⟨⟨id, rest, hp⟩, n, c, hcollected⟩
    have hl : D.Legal σ.state .watcher (.pending_remove id) := (hσ.legal hp).2
    obtain ⟨-, n', k', c', call, hcollected', hcall, hid⟩ := legal_look_up hI hl
    obtain ⟨rfl, rfl, rfl⟩ : n' = n ∧ k' = k ∧ c' = c := by
      simpa using hcollected'.symm.trans hcollected
    -- the watcher has just given the slot back
    have hwatching : watching σ.state.log = .collected := by
      have hkeeps := h.lookup_keeps
      rw [hp] at hkeeps
      have hallowed : lookup.allowed (watching σ.state.log) (.pending_remove id) := hkeeps.1
      cases hq : watching σ.state.log with
      | collected => rfl
      | _ =>
          rw [hq] at hallowed
          exact hallowed.elim
    have hiff := hw.registered_iff hcall fun hlooked => hw.once _ _ _ hcollected hlooked hwatching
    refine ⟨hiff, fun hinserted x σ' hnext => ?_⟩
    obtain ⟨other, hother, hpending⟩ := hiff.mpr hinserted
    obtain rfl := Option.some.inj (hcall.symm.trans hother)
    have hid' := hid ((h.properIds hfresh).fits _ call hcall)
    refine resolves_of_found (h.step ⟨.run .watcher x, fun _ _ _ => trivial, hnext⟩)
      hadmits hfresh ?_
    simp only [System.next, hp, Option.map_eq_some_iff] at hnext
    obtain ⟨⟨r, w'⟩, hx, rfl⟩ := hnext
    obtain ⟨u, hu, rfl⟩ := exec_iff.mp hx
    obtain ⟨rfl, rfl⟩ := Prod.mk.inj (Option.some.inj hu)
    show lookup.next (watching σ.state.log) (.pending_remove id) (σ.state.pending id) = .found _
    rw [hid', hpending]
    rfl
  · rintro i ⟨hcall, hne⟩
    obtain ⟨call, -, -, -, hcalls, -⟩ := hI.request i k hcall hne
    exact hw.registered_iff hcalls fun hlooked => (hw.looked_gone k hlooked).2 i hcall

end Runs

/-- The response of a call that has returned. -/
theorem receiver_found_small : ∃ σ : Configuration bus Thread World,
    Looks_up σ 0 ∧ Registered σ.state 0 ∧ Inserted σ.state 0 := by
  have hrun : (small_total_bus.system.play (.launching fun e w => Answers_once e w ∧ Fresh_id e w)
      ([.launch (.dispatch (small_call "a" []))] ++ small_steps (.dispatch 0) 15 ++
        [.launch (.receive 0)] ++ small_steps (.receive 0) 11 ++
        [.launch (.respond (small_reply 0 []))] ++ small_steps (.respond 0) 11 ++
        [.launch .watcher] ++ small_steps .watcher 12) (Start small_start)).map
      (fun σ => ((match σ.program .watcher with
        | .act (.pending_remove _) _ => true
        | _ =>
            false), collected σ.state.log, σ.state.calls.map fun call =>
              σ.state.pending call.req_id)) =
      some (true, some (0, 0, 0), [some 0]) := by decide +kernel
  obtain ⟨σ, hplay, hσ⟩ := Option.map_eq_some_iff.mp hrun
  obtain ⟨hlook, hσ⟩ := Prod.mk.inj hσ
  obtain ⟨hcollected, hpending⟩ := Prod.mk.inj hσ
  have hregistered : Registered σ.state 0 := by
    have hfirst :
        (σ.state.calls.map fun call => σ.state.pending call.req_id)[0]? = some (some 0) := by
      rw [hpending]
      rfl
    rw [List.getElem?_map] at hfirst
    obtain ⟨call, hcall, hregistered⟩ := Option.map_eq_some_iff.mp hfirst
    exact ⟨call, hcall, hregistered⟩
  have hlooks : Looks_up σ 0 := by
    refine ⟨?_, 0, 0, hcollected⟩
    split at hlook
    · exact ⟨_, _, by assumption⟩
    · cases hlook
  exact ⟨σ, hlooks, hregistered,
    ((receiver_found_iff (small_bus_reaches hplay)).1 hlooks).1.mp hregistered⟩

end SlotBus
