import SlotBus.Leases

/-!
# The programs of the bus follow the protocol

Each program that is ever launched performs legal actions only, whatever the other threads do in
between.

* `receive_pass_safe`, `watcher_pass_safe`, `dispatch_program_safe`, `respond_program_safe` — the
  four kinds of programs;
* `reachable_invariant` — **soundness**: the invariant of the protocol holds in every state that any
  run reaches.
-/

namespace SlotBus

open ByteMemory AtomicProgram AtomicProgram.Program

/-! ### Programs that only read -/

section Reading

variable {α β : Type} {target : Target} {region : ShmRegion} {config : SlotBusConfig} {i : ℕ}

/-- The actions of a program that reads a payload. -/
def Action.looks : Action → Prop
  | .read _ _ | .shm_open _ | .shm_read _ _ | .panic => True
  | _ => False

theorem Action.looks.bystander {a : Action} (ha : a.looks) : a.Bystander := by
  cases a <;> first | exact ha.elim | trivial

theorem read_field_confined (k n : ℕ) : (read_field i k n).Confined Action.looks :=
  ⟨trivial, fun _ => trivial⟩

theorem from_except_confined (x : Except SlotBusError α) :
    (from_except x).run.Confined Action.looks := by
  cases x <;> trivial

theorem or_panic_confined (x : Option α) : (or_panic x).run.Confined Action.looks := by
  cases x with
  | none => exact ⟨trivial, nofun⟩
  | some v => trivial

theorem heap_read_confined (offset len : ℕ) :
    (region.heap_read_checked offset len).run.Confined Action.looks := by
  unfold ShmRegion.heap_read_checked
  split
  · exact ⟨trivial, fun _ => trivial⟩
  · trivial

theorem read_payload_confined (d : Direction) (codec : Codec α) :
    (read_payload d codec target region i config).run.Confined Action.looks := by
  refine confined_bind (confined_lift (read_field_confined _ _)) fun meta_offset => ?_
  refine confined_bind (confined_lift (read_field_confined _ _)) fun meta_len => ?_
  refine confined_bind (heap_read_confined _ _) fun meta_bytes => ?_
  refine confined_bind (from_except_confined _) fun m => ?_
  refine confined_bind (confined_lift (read_field_confined _ _)) fun body_len => ?_
  refine confined_bind (confined_lift (read_field_confined _ _)) fun marker => ?_
  split
  · trivial
  · split
    · refine confined_bind (confined_lift (read_field_confined _ _)) fun body_offset => ?_
      exact confined_bind (heap_read_confined _ _) fun body => trivial
    · refine confined_bind (or_panic_confined _) fun name => ?_
      exact confined_bind (read_overflow_confined (fun _ => trivial) (fun _ _ => trivial) name _)
        fun body => trivial

theorem read_request_confined (codec : Codec RequestMeta) :
    (read_request codec target region i config).run.Confined Action.looks := by
  refine confined_bind (confined_lift ⟨trivial, fun _ => trivial⟩) fun req_id => ?_
  refine confined_bind (confined_lift (read_field_confined _ _)) fun method => ?_
  exact confined_bind (read_payload_confined _ _) fun m => trivial

theorem read_response_confined (codec : Codec ResponseMeta) :
    (read_response codec target region i config).run.Confined Action.looks := by
  refine confined_bind (confined_lift (read_field_confined _ _)) fun status => ?_
  exact confined_bind (read_payload_confined _ _) fun m => trivial

end Reading

namespace Deployment

variable {D : Deployment} {hD : D.Sound} {t : Thread} {w : World} {i : ℕ}

/-- Nothing is ever forgotten, whoever acts. -/
theorem safe_extends {α : Type} {p : Program bus α} {Q : α → World → Prop}
    (h : (D.protocol hD).Safe t p Q w) :
    (D.protocol hD).Safe t p (fun v u => Q v u ∧ w.Extends u) w := by
  refine h.frame (fun u u' hi hu => hu.trans (interferes_extends hi)) ?_ (World.Extends.refl w)
  exact fun u a c r u' hI hl hx hu => hu.trans (Invariant.extends hI hx)

/-- A thread that only looks keeps the slot that it alone passes on. -/
theorem safe_looking {α : Type} {p : Program bus α} {o : Owner} (hkept : o.KeptBy t)
    (hknows : ∀ u : World,
        D.Invariant u → owner u.log i = o → u.Knows t) (hp : p.Confined Action.Bystander)
          (ho : owner w.log i = o) :
    (D.protocol hD).Safe t p (fun _ u => owner u.log i = o) w := by
  refine .of_confined (F := fun u : World => owner u.log i = o) ?_ ?_ ?_ hp ho
  · exact fun u u' h hu => (interferes_owner h (hu ▸ hkept)).trans hu
  · exact fun u a hI hu ha => ⟨hknows u hI hu, .bystander ha⟩
  · intro u a c r u' hI hu ha hx
    rw [(exec_changes hx).log, owner_silent ha.silent.1]
    exact hu

/-! ### What is read -/

/-- Both handles see the guaranteed bytes at the same addresses. -/
theorem area_reader (hD : D.Sound) (d : Direction) (i : ℕ) :
    (D.half (D.reader d) d i).area D.Faithful = (D.half (D.writer d) d i).area D.Faithful := by
  have h : ∀ e, D.Faithful → arena (D.writer e) d i = arena (D.writer d) d i :=
    fun e hf => hf.arena_eq hD e d d i
  refine congrArg (record d i ∪ ·) (Set.ext fun x => and_congr_right fun hf => ?_)
  cases d with
  | request => exact h .response hf ▸ Iff.rfl
  | response => exact h .request hf ▸ Iff.rfl

/-- What the reader knows of a payload that was placed in its slot. -/
theorem view_of_filled {d : Direction} {writer : Thread} {meta_bytes body : List UInt8}
    {P : Placement} {m : Memory} {K : Lease (D.protocol hD) t (D.half (D.reader d) d i)}
    (hholds : K.holds w) (hfaithful : K.faithful = D.Faithful) (htracked : K.tracked = D.Tracked)
    (hfirm : ¬ K.firm)
    (h : (D.half (D.writer d) d i).Filled D.Faithful D.Tracked False writer meta_bytes body P m w) :
    K.View ((D.half (D.writer d) d i).place meta_bytes body P m) writer body P w := by
  refine ⟨hholds, ?_, fun ht r hr => ?_, fun _ hf => absurd hf hfirm⟩
  · rw [hfaithful, area_reader hD]
    exact h.bytes
  · obtain ⟨g, -, hfresh⟩ := h.fresh r hr
    have hb := hfresh.backed (htracked ▸ ht)
    exact ⟨hb.own, hb.created, hb.len, hb.bytes, hb.named⟩

/-- What is recorded for the reader of a payload that was placed in its slot. -/
theorem recorded_of_filled (hD : D.Sound) (hf : D.Faithful) (hi : i < D.num_slots) {d : Direction}
    {writer : Thread} {meta_bytes body : List UInt8} {P : Placement} {m : Memory}
    (h : (D.half (D.writer d) d i).Filled D.Faithful D.Tracked False writer meta_bytes body P m w) :
    (D.half (D.reader d) d i).Recorded meta_bytes body P
    ((D.half (D.writer d) d i).place meta_bytes body P m) := by
  have hrecorded :=
    SlotHalf.place_recorded ⟨hD.writer_inTable d hi, hf.heap_lt_writer d⟩ h.meta_fits
    (h.placed hf) m
  cases d with
  | request => exact hrecorded.relocate hD.num_slots_eq hf.heap_offset_eq hf.heap_size_eq
  | response =>
      exact hrecorded.relocate hD.num_slots_eq.symm hf.heap_offset_eq.symm hf.heap_size_eq.symm

/-- A receive loop reads the request of the slot it has claimed. -/
theorem read_request_safe {l k : ℕ} (hI : D.Invariant w) (hk : owner w.log i = .reading l k) :
    ∃ call, w.calls[k]? = some call ∧ (D.protocol hD).Safe (.receive l)
      (read_request D.request_codec D.target D.worker_region i D.config).run
      (fun result u => owner u.log i = .reading l k ∧ ∀ id method m body,
        result = .ok (id, method, m, body) → D.Precise → D.CallFits call → FitsIdField call.req_id →
          D.Carries call (Request.build id method m body)) w := by
  have hi : i < D.num_slots := hI.range i (by simp [hk])
  obtain ⟨call, meta_bytes, P, m, hcall, hmeta, hfilled⟩ :=
    hI.request i k (by rw [hk]; rfl) (by simp [hk])
  refine ⟨call, hcall, ?_⟩
  by_cases hfits : D.Precise ∧ D.CallFits call ∧ FitsIdField call.req_id
  · obtain ⟨hprecise, hcallfits, hid⟩ := hfits
    have hwriter : ∀ (u : World) v, owner u.log i = .reading l k → ¬ Tenant u v .request i := by
      rintro u v hu ⟨hv⟩
      rw [hu] at hv
      cases hv
    have htable := hD.writer_inTable .request hi
    refine Lease.read_request
      (K := slot_lease hD (.receive l) D.worker_region .request i (.reading l k) rfl
        (fun _ _ _ => trivial) hwriter (hD.reader_inTable .request hi) hi
        (area_reader hD .request i)
        fun hf => hf.heap_lt_writer .response) hprecise.toFaithful hprecise.tracked
      (view_of_filled (d := .request) hk rfl rfl not_false hfilled)
      (recorded_of_filled hD hprecise.toFaithful hi hfilled) (hcallfits.metadata _ hmeta)
        hcallfits.body ?_ ?_ ?_
    · exact fun e u _ _ hu => ⟨hu, nofun⟩
    · exact fun _ e u _ _ hu => ⟨hu, nofun⟩
    · refine fun v u hv _ hu => ⟨hu, ?_⟩
      rintro id method m' body ⟨⟩ - - -
      refine ⟨meta_bytes, v, hmeta, hv, ?_⟩
      have h1 := decode_req_id_place meta_bytes call.body P htable hid (method_to_u8 call.method) m
      have h2 := method_place meta_bytes call.body P htable call.req_id (method_to_u8 call.method) m
      exact congrArg₂ (fun id method => Request.build id method v call.body) h1 h2
  · refine (safe_looking (t := .receive l) (o := .reading l k) rfl (fun _ _ _ => trivial)
      ((read_request_confined _).mono fun _ ha => ha.bystander) hk).mono ?_
    exact fun r u _ hu => ⟨hu, fun _ _ _ _ _ h1 h2 h3 => absurd ⟨h1, h2, h3⟩ hfits⟩

/-- The watcher reads the response of a slot that is done. -/
theorem read_response_safe {n k c : ℕ} (hI : D.Invariant w) (hk : owner w.log i = .done n k c) :
    ∃ reply, w.replies[c]? = some reply ∧ (D.protocol hD).Safe .watcher
      (read_response D.response_codec D.target D.hub_region i D.config).run
      (fun result u => owner u.log i = .done n k c ∧ ∀ status m body,
        result = .ok (status, m, body) →
        D.Precise → D.ReplyFits reply → D.Conveys reply ⟨status, body, m.content_type, m.headers⟩)
          w := by
  have hi : i < D.num_slots := hI.range i (by simp [hk])
  obtain ⟨reply, meta_bytes, P, m, hreply, hmeta, hfilled⟩ := hI.response i n k c hk
  refine ⟨reply, hreply, ?_⟩
  by_cases hfits : D.Precise ∧ D.ReplyFits reply
  · obtain ⟨hprecise, hreplyfits⟩ := hfits
    have hwriter : ∀ (u : World) v, owner u.log i = .done n k c → ¬ Tenant u v .response i := by
      rintro u v hu (_ | ⟨hv, -⟩)
      rw [hu] at hv
      cases hv
    refine Lease.read_response
      (K := slot_lease hD .watcher D.hub_region .response i (.done n k c) trivial
        (fun _ _ _ => trivial) hwriter (hD.reader_inTable .response hi) hi
        (area_reader hD .response i)
        fun hf => hf.heap_lt) hprecise.toFaithful hprecise.tracked
      (view_of_filled (d := .response) hk rfl rfl not_false hfilled)
      (recorded_of_filled hD hprecise.toFaithful hi hfilled) (hreplyfits.metadata _ hmeta)
        hreplyfits.body ?_ ?_ ?_
    · exact fun e u _ _ hu => ⟨hu, nofun⟩
    · exact fun _ e u _ _ hu => ⟨hu, nofun⟩
    · refine fun v u hv _ hu => ⟨hu, ?_⟩
      rintro status m' body ⟨⟩ - -
      refine ⟨meta_bytes, v, hmeta, hv, ?_⟩
      have h1 := status_place meta_bytes reply.body P
          (hD.writer_inTable .response hi) reply.status m
      exact congrArg (fun status => Response.mk status reply.body v.content_type v.headers) h1
  · refine (safe_looking (t := .watcher) (o := .done n k c) trivial (fun _ _ _ => trivial)
      ((read_response_confined _).mono fun _ ha => ha.bystander) hk).mono ?_
    exact fun r u _ hu => ⟨hu, fun _ _ _ _ h1 h2 => absurd ⟨h1, h2⟩ hfits⟩

/-- The id that the watcher reads is that of the call whose request was answered. -/
theorem read_req_id_safe {n k c : ℕ} (hI : D.Invariant w) (hk : owner w.log i = .done n k c) :
    (D.protocol hD).Safe .watcher (read_req_id i)
      (fun id u => owner u.log i = .done n k c ∧ ∀ call, w.calls[k]? = some call →
        FitsIdField call.req_id →
        id = call.req_id) w := by
  have hi : i < D.num_slots := hI.range i (by simp [hk])
  obtain ⟨call, meta_bytes, P, m, hcall, hmeta, hfilled⟩ :=
    hI.request i k (by rw [hk]; rfl) (by simp [hk])
  have hwriter : ∀ (u : World) v, owner u.log i = .done n k c → ¬ Tenant u v .request i := by
    rintro u v hu ⟨hv⟩
    rw [hu] at hv
    cases hv
  have htable := hD.writer_inTable .request hi
  let K := slot_lease hD .watcher D.hub_region .request i (.done n k c) trivial
      (fun _ _ _ => trivial) hwriter
    htable hi rfl fun hf => hf.heap_lt
  have hview : K.View ((D.half D.hub_region .request i).place meta_bytes call.body P
      (place_header i call.req_id (method_to_u8 call.method) m)) (.dispatch k) call.body P w := by
    refine ⟨hk, hfilled.bytes, ?_, fun _ hf => hf.elim⟩
    intro htracked r hr
    obtain ⟨g, -, hfresh⟩ := hfilled.fresh r hr
    exact hfresh.backed htracked
  unfold read_req_id
  refine Lease.read hview ((request_record_subset le_rfl (by omega)).trans Set.subset_union_left)
    fun u _ hu => ?_
  refine Contract.Safe.done Lease.stable_view hu fun v _ hv =>
    ⟨hv.holds, fun call' hcall' hid => ?_⟩
  obtain rfl := Option.some.inj (hcall.symm.trans hcall')
  exact decode_req_id_place _ _ _ htable hid _ m

/-! ### One action after another -/

/-- Since `w₀`, thread `t` has come to phase `p`, and nothing was forgotten. -/
structure Since (w₀ : World) (t : Thread) (p : Phase) (u : World) : Prop where
  phase_eq : phase u.log t = p
  extends_ : w₀.Extends u

variable {w₀ : World} {p : Phase}

theorem since_stable : (D.protocol hD).Stable t (Since w₀ t p) :=
  fun _ _ h hu => ⟨(interferes_phase h).trans hu.phase_eq, hu.extends_.trans (interferes_extends h)⟩

/-- **One action**, legal in every state the thread may find. -/
theorem safe_act {α : Type} {a : Action} {k : Answer a → Program bus α} {Q : α → World → Prop}
    {P : World → Prop} (hP : (D.protocol hD).Stable t P) (hw : P w) (hp : Since w₀ t p w)
    (hlegal : ∀ u, D.Invariant u → P u → Since w₀ t p u → u.Knows t ∧ D.Legal u t a)
    (hk : ∀ u c r u', D.Invariant u → P u → D.Invariant u' →
      (machine D.target).exec t a c u = some (r, u') → Since w₀ t (Entry.advance ⟨t, a, r⟩ p) u' →
      (D.protocol hD).Safe t (k r) Q u') :
    (D.protocol hD).Safe t (.act a k) Q w := by
  refine Contract.Safe.act (hP.and (since_stable (p := p))) ⟨hw, hp⟩
    (fun u hI hu => hlegal u hI hu.1 hu.2) ?_
  intro u c r u' hI hu hI' hx
  refine hk u c r u' hI hu.1 hI' hx ⟨?_, hu.2.extends_.trans (Invariant.extends hI hx)⟩
  rw [(exec_changes hx).log, phase_cons_self, hu.2.phase_eq]

/-- An action that is legal because of the thread's phase. -/
theorem safe_step {α : Type} {a : Action} {k : Answer a → Program bus α} {Q : α → World → Prop}
    (hp : Since w₀ t p w)
    (hlegal : ∀ u, D.Invariant u → Since w₀ t p u → u.Knows t ∧ D.Legal u t a)
    (hk : ∀ u c r u', D.Invariant u → D.Invariant u' →
      (machine D.target).exec t a c u = some (r, u') → Since w₀ t (Entry.advance ⟨t, a, r⟩ p) u' →
      (D.protocol hD).Safe t (k r) Q u') :
    (D.protocol hD).Safe t (.act a k) Q w :=
  safe_act (P := fun _ => True) (fun _ _ _ _ => trivial) trivial hp
    (fun u hI _ hu => hlegal u hI hu)
    fun u c r u' hI _ hI' hx hu => hk u c r u' hI hI' hx hu

theorem safe_done {α : Type} {v : α} {Q : α → World → Prop} (hp : Since w₀ t p w)
    (hQ : ∀ u, D.Invariant u → Since w₀ t p u → Q v u) : (D.protocol hD).Safe t (.done v) Q w :=
  Contract.Safe.done since_stable hp hQ

/-- **Visiting slots.**  What every visit keeps holds after all of them. -/
theorem for_each_safe {C : Contract M} {F : World → Prop} (hF : C.Stable t F)
    {visit : ℕ → Program bus Unit} {slots : List ℕ} (hvisit : ∀ i ∈ slots, ∀ u, C.invariant u →
      F u → C.Safe t (visit i) (fun _ => F) u)
    (hI : C.invariant w) (hw : F w) : C.Safe t (for_each visit slots) (fun _ => F) w := by
  induction slots generalizing w with
  | nil => exact Contract.Safe.done hF hw fun _ _ hu => hu
  | cons i rest ih =>
      refine Contract.Safe.bind ((hvisit i List.mem_cons_self w hI hw).mono fun _ u hI' hu => ?_) hI
      exact ih (fun j hj => hvisit j (List.mem_cons_of_mem _ hj)) hI' hu

/-! ### The receive loop -/

/-- The loop holds no slot. -/
def NoSlot (t : Thread) (w : World) : Prop := ∀ i, phase w.log t ≠ .holding i

theorem noSlot_stable : (D.protocol hD).Stable t (NoSlot t) :=
  fun _ _ h hu i => (interferes_phase h).symm ▸ hu i

theorem receive_slot_safe {l : ℕ} (hi : i < D.num_slots) (hw : NoSlot (.receive l) w) :
    (D.protocol hD).Safe (.receive l) (D.receive_slot l i) (fun _ => NoSlot (.receive l)) w := by
  unfold receive_slot
  refine safe_act noSlot_stable hw ⟨rfl, .refl w⟩ (fun u _ hu _ => ⟨trivial, .take hi hu⟩) ?_
  intro u c r u' hI hu hI' hx hsince
  rcases mem_of_swap hx with ⟨rfl, hs, -⟩ | ⟨rfl, -, -⟩
  · obtain ⟨k, hk⟩ := Owner.eq_ready ((hI.status i hi).symm.trans hs)
    have hreading : owner u'.log i = .reading l k := by
      rw [(exec_changes hx).log]
      show Function.update (owner u.log) i _ i = _
      rw [Function.update_self, hk]
    obtain ⟨call, hcall, hsafe⟩ := read_request_safe hI' hreading
    refine Contract.Safe.bind
      (p := (read_request D.request_codec D.target D.worker_region i D.config).run)
      ((safe_extends hsafe).mono fun result v hIv hv => ?_) hI'
    have hkept : (D.protocol hD).Stable (.receive l) fun v => owner v.log i = .reading l k :=
      fun v v' h hv => (interferes_owner h (hv ▸ rfl)).trans hv
    obtain ⟨⟨hv, hresult⟩, hextends⟩ := hv
    cases result with
    | ok x =>
        obtain ⟨id, method, m, body⟩ := x
        refine safe_act hkept hv ⟨rfl, hextends⟩ (fun z _ hz hsince => ⟨trivial, .invoke hz ?_⟩) ?_
        · exact ⟨call, hsince.extends_.calls k call hcall, hresult id method m body rfl⟩
        · intro z c' n z' _ _ _ _ hz'
          refine safe_done hz' fun z'' _ hz'' j => ?_
          rw [hz''.phase_eq]
          nofun
    | error e =>
        refine safe_act hkept hv ⟨rfl, hextends⟩ (fun z _ hz _ => ⟨trivial, .reject hz⟩) ?_
        intro z c' x z' _ _ _ _ hz'
        refine safe_done hz' fun z'' _ hz'' j => ?_
        rw [hz''.phase_eq]
        nofun
  · refine safe_done hsince fun v _ hv j => ?_
    rw [hv.phase_eq]
    exact hw j

theorem receive_pass_safe {l : ℕ} (hw : NoSlot (.receive l) w) :
    (D.protocol hD).Safe (.receive l) (D.receive_pass l) (fun _ => D.Idle (.receive l)) w := by
  unfold receive_pass
  refine safe_act noSlot_stable hw ⟨rfl, .refl w⟩ (fun u _ _ _ => ⟨trivial, .bystander trivial⟩) ?_
  intro u c r u' _ _ _ hx hsince
  cases r with
  | false =>
      refine safe_done hsince fun v _ hv j => ?_
      rw [hv.phase_eq]
      exact hw j
  | true =>
      refine safe_step hsince (fun u _ _ => ⟨trivial, .bystander trivial⟩) ?_
      intro v c' b v' _ hI _ hsince'
      refine for_each_safe noSlot_stable (fun i hi u _ hu => receive_slot_safe ?_ hu) hI fun j => ?_
      · rw [hD.num_slots_eq, List.mem_range] at hi
        exact hi
      · rw [hsince'.phase_eq]
        exact hw j

/-! ### The response watcher -/

theorem collected_stable {k c : ℕ} : (D.protocol hD).Stable .watcher fun u => u.Collected k c := by
  rintro u u' h ⟨n, reply, hcollected, hreply, heq, hreceived⟩
  have hextends := interferes_extends h
  refine ⟨n, reply, ?_, hextends.replies c reply hreply, heq, hextends.received n k hreceived⟩
  obtain ⟨-, -, ⟨v, a, x, r, hne, -, hx⟩ | ⟨v, e, p, -, -, hx⟩⟩ := interferes_cases h
  · rw [(exec_changes hx).log, collected_of_ne_watcher hne]
    exact hcollected
  · obtain ⟨calls, replies, rfl⟩ := launch_eq hx
    exact hcollected

/-- The watcher's own silent actions do not change what it collected last. -/
theorem collected_own {k c : ℕ} {a : Action} {x : Choice} {r : Answer a}
    {u u' : World} (hI : D.Invariant u) (h : u.Collected k c) (ha : a.Silent)
    (hx : (machine D.target).exec .watcher a x u = some (r, u')) :
    u'.Collected k c := by
  obtain ⟨n, reply, hcollected, hreply, heq, hreceived⟩ := h
  have hextends := Invariant.extends hI hx
  refine ⟨n, reply, ?_, hextends.replies c reply hreply, heq, hextends.received n k hreceived⟩
  rw [(exec_changes hx).log, collected_silent ha]
  exact hcollected

/-- What the watcher has collected when its compare-exchange succeeds. -/
theorem collected_of_swap {n k c : ℕ} {x : Choice} {u u' : World} (hI : D.Invariant u)
    (ho : owner u.log i = .done n k c)
    (hx : (machine D.target).exec .watcher (.compare_exchange i SLOT_DONE SLOT_FREE) x u =
      some (true, u')) :
    u'.Collected k c := by
  have hextends := Invariant.extends hI hx
  obtain ⟨-, hinvocation, -⟩ := hI.ledger.done i n k c ho
  obtain ⟨reply, hreply, heq⟩ := Option.map_eq_some_iff.mp hinvocation
  refine ⟨n, reply, ?_, hextends.replies c reply hreply, heq,
    hextends.received n k (hI.handed i n k (.inr ⟨c, ho⟩))⟩
  rw [(exec_changes hx).log]
  exact collected_of_done ho _ _

/-- Looking up the receiver and resolving it. -/
theorem deliver_safe {k c : ℕ} {req_id : String} {response : Response} {call : DispatchCall}
    (hw : w.Collected k c) (hcall : w.calls[k]? = some call)
    (hid : FitsIdField call.req_id → req_id = call.req_id) (hresponse : D.Answers w c response) :
    (D.protocol hD).Safe .watcher (do
      match ← pending_remove req_id with
      | some tx => send tx response
      | none => pure ()) (fun _ _ => True) w := by
  have htrivial : ∀ u : World, (D.protocol hD).Safe .watcher (.done ()) (fun _ _ => True) u :=
    fun u => Contract.Safe.done (P := fun _ => True) (fun _ _ _ _ => trivial) trivial fun _ _ _ =>
      trivial
  refine safe_act collected_stable hw ⟨rfl, .refl w⟩ (fun u _ hu hsince =>
    ⟨trivial, .look_up hu ?_⟩) ?_
  · intro call' hcall' hfits
    obtain rfl := Option.some.inj ((hsince.extends_.calls k call hcall).symm.trans hcall')
    exact hid hfits
  · intro u x r u' hI hu hI' hx hsince
    have hu' := collected_own (a := .pending_remove req_id) hI hu trivial hx
    have hcall' := hsince.extends_.calls k call hcall
    have hanswer : r = u.pending req_id := by
      obtain ⟨v, hv, -⟩ := exec_iff.mp hx
      exact (Prod.mk.inj (Option.some.inj hv)).1.symm
    cases r with
    | none => exact htrivial u'
    | some tx =>
        obtain ⟨other, hother, heq⟩ := hI.pending req_id tx hanswer.symm
        have hother' := (Invariant.extends hI hx).calls tx other hother
        refine safe_act collected_stable hu' ⟨rfl, .refl u'⟩
          (fun z _ hz hz' => ⟨trivial, .deliver hz (fun hids => ?_) ?_⟩) fun z x y z' _ _ _ _ _ =>
            htrivial z'
        · have h1 := hz'.extends_.calls k call hcall'
          exact hids.distinct tx k other call (hz'.extends_.calls tx other hother') h1
            (heq.trans (hid (hids.fits k call h1)))
        · exact hresponse.mono (hsince.extends_.trans hz'.extends_)

/-- The watcher's visit of a slot. -/
theorem watch_slot_safe (hi : i < D.num_slots) :
    (D.protocol hD).Safe .watcher (D.watch_slot i) (fun _ _ => True) w := by
  have htrivial : ∀ u : World, (D.protocol hD).Safe .watcher (.done ()) (fun _ _ => True) u :=
    fun u => Contract.Safe.done (P := fun _ => True) (fun _ _ _ _ => trivial) trivial fun _ _ _ =>
      trivial
  unfold watch_slot
  refine safe_step ⟨rfl, .refl w⟩ (fun u _ _ => ⟨trivial, .bystander trivial⟩) ?_
  intro u x (status : ℕ) u' hI hI' hx _
  have hstatus : status = slot_status u.mem i ∧ u'.log = ⟨.watcher, .load i, status⟩ :: u.log := by
    obtain ⟨v, hv, rfl⟩ := exec_iff.mp hx
    obtain ⟨rfl, rfl⟩ := Prod.mk.inj (Option.some.inj hv)
    exact ⟨rfl, rfl⟩
  by_cases hdone : status = SLOT_DONE
  · show (D.protocol hD).Safe .watcher (if status ≠ SLOT_DONE then _ else _) _ u'
    rw [if_neg (not_not_intro hdone)]
    obtain ⟨n, k, c, hk⟩ := Owner.eq_done ((hI.status i hi).symm.trans (hstatus.1.symm.trans hdone))
    have hk' : owner u'.log i = .done n k c := by
      rw [hstatus.2]
      exact hk
    obtain ⟨call, -, -, -, hcall, -⟩ := hI'.request i k (by rw [hk']; rfl) (by simp [hk'])
    have hkept : (D.protocol hD).Stable .watcher fun v => owner v.log i = .done n k c :=
      fun v v' h hv => (interferes_owner h (hv ▸ trivial)).trans hv
    refine Contract.Safe.bind (p := read_req_id i)
      ((safe_extends (read_req_id_safe hI' hk')).mono ?_) hI'
    rintro req_id v hIv ⟨⟨hv, hid⟩, hextends⟩
    obtain ⟨reply, hreply, hread⟩ := read_response_safe hIv hv
    refine Contract.Safe.bind
      (p := (read_response D.response_codec D.target D.hub_region i D.config).run)
      ((safe_extends hread).mono ?_) hIv
    rintro result z hIz ⟨⟨hz, hresult⟩, hextends'⟩
    -- the slot is given back
    refine safe_act hkept hz ⟨rfl, hextends'⟩ (fun y _ _ _ => ⟨trivial, .collect hi⟩) ?_
    intro y x b y' hIy hy hIy' hx hsince
    cases b with
    | false => exact htrivial y'
    | true =>
        have hcollected := collected_of_swap hIy hy hx
        refine safe_act collected_stable hcollected hsince
          (fun o _ _ ho => ⟨trivial, .drop_collected ho.phase_eq⟩) ?_
        intro o x r o' hIo ho hIo' hx hsince'
        have ho' := collected_own (a := .overflow_remove .hub i) hIo ho trivial hx
        cases result with
        | error e => exact htrivial o'
        | ok answer =>
            obtain ⟨status, m, body⟩ := answer
            refine deliver_safe ho' ((hextends.trans hsince'.extends_).calls k call hcall)
              (hid call hcall) ?_
            exact ⟨reply, hsince'.extends_.replies c reply hreply, hresult status m body rfl⟩
  · show (D.protocol hD).Safe .watcher (if status ≠ SLOT_DONE then _ else _) _ u'
    rw [if_pos hdone]
    exact htrivial u'

theorem watcher_pass_safe :
    (D.protocol hD).Safe .watcher D.watcher_pass (fun _ => D.Idle .watcher) w := by
  unfold watcher_pass
  refine safe_step ⟨rfl, .refl w⟩ (fun u _ _ => ⟨trivial, .bystander trivial⟩) ?_
  intro u c r u' _ _ _ hsince
  cases r with
  | false => exact safe_done hsince fun _ _ _ => trivial
  | true =>
      refine safe_step hsince (fun u _ _ => ⟨trivial, .bystander trivial⟩) ?_
      intro v c' b v' _ hI _ _
      exact for_each_safe (fun _ _ _ _ => trivial)
        (fun i hi u _ _ => watch_slot_safe (List.mem_range.mp hi)) hI trivial

/-! ### Dispatch calls -/

theorem knows_dispatch {k : ℕ} {call : DispatchCall} {u : World} (hcall : w₀.calls[k]? = some call)
    (h : w₀.Extends u) : u.Knows (.dispatch k) :=
  (List.getElem?_eq_some_iff.mp (h.calls k call hcall)).1

/-- Scanning for a free slot. -/
theorem claim_first_safe {k : ℕ} {call : DispatchCall} (hcall : w₀.calls[k]? = some call)
    {slots : List ℕ} (hslots : ∀ i ∈ slots, i < D.num_slots) (hw : Since w₀ (.dispatch k) .idle w) :
    (D.protocol hD).Safe (.dispatch k) (claim_first slots) (fun result u =>
      (result = none ∧ Since w₀ (.dispatch k) .idle u) ∨
        ∃ i, result = some i ∧ i < D.num_slots ∧ Since w₀ (.dispatch k) (.holding i) u) w := by
  induction slots generalizing w with
  | nil => exact safe_done hw fun u _ hu => .inl ⟨rfl, hu⟩
  | cons i rest ih =>
      have hi := hslots i List.mem_cons_self
      refine safe_step hw
        (fun u _ hu => ⟨knows_dispatch hcall hu.extends_, .claim hi hu.phase_eq⟩) ?_
      intro u x b u' _ _ _ hu'
      cases b with
      | true => exact safe_done hu' fun v _ hv => .inr ⟨i, rfl, hi, hv⟩
      | false => exact ih (fun j hj => hslots j (List.mem_cons_of_mem _ hj)) hu'

/-- What a dispatch call knows after `write_request`. -/
def AfterWrite (w₀ : World) (k i : ℕ) (result : Except SlotBusError (Option OverflowRegion))
    (u : World) : Prop :=
  match result with
  | .ok overflow => Since w₀ (.dispatch k) (.published i) u ∧
      ∀ r, overflow = some r → latest_region (history (.dispatch k) u.log) = some r
  | .error _ => Since w₀ (.dispatch k) (.released i) u

/-- Writing and publishing the request. -/
theorem write_request_safe {k : ℕ} {call : DispatchCall} {meta_bytes : List UInt8}
    (hcall : w₀.calls[k]? = some call)
    (hmeta : D.request_codec.to_allocvec call.meta_ = .ok meta_bytes) (hi : i < D.num_slots)
    (hI : D.Invariant w) (hw : Since w₀ (.dispatch k) (.holding i) w) :
    (D.protocol hD).Safe (.dispatch k) (write_request D.target D.hub_region i call.req_id
      (method_to_u8 call.method) meta_bytes call.body D.config) (AfterWrite w₀ k i) w := by
  have howner : owner w.log i = .writing k := (hI.ledger.writing i k).mpr hw.phase_eq
  have hcallw := hw.extends_.calls k call hcall
  refine (safe_extends (Tenancy.write_request (T := dispatch_tenancy hD k i call hi) (m := w.mem)
    (Q := fun result u => w.Extends u → AfterWrite w₀ k i result u)
    ⟨⟨howner, hcallw⟩, .refl _ _⟩ hI ?_ ?_)).mono fun result u _ hu => hu.1 hu.2
  · intro e u hIu _ hu
    refine Contract.Safe.act (dispatch_tenancy hD k i call hi).stable hu
      (fun v _ hv => ⟨(List.getElem?_eq_some_iff.mp hv.2).1, .withdraw hv.1⟩) ?_
    intro v x r v' hIv hv _ hx
    have hphase : phase v'.log (.dispatch k) = .released i := by
      rw [(exec_changes hx).log, phase_cons_self]
      rfl
    refine Contract.Safe.done (P := fun z => phase z.log (.dispatch k) = .released i)
      (fun z z' h hz => (interferes_phase h).trans hz) hphase fun z _ hz hextends => ?_
    exact ⟨hz, hw.extends_.trans hextends⟩
  · intro P u hIu hu
    refine Contract.Safe.act Tenancy.stable_written hu (fun v _ hv =>
      ⟨(List.getElem?_eq_some_iff.mp hv.holds.2).1, .publish hv.holds.1
        ⟨call, meta_bytes, P, w.mem, hv.holds.2, hmeta, hv.filled⟩⟩) ?_
    intro v x r v' hIv hv _ hx
    have hphase : phase v'.log (.dispatch k) = .published i := by
      rw [(exec_changes hx).log, phase_cons_self]
      rfl
    have hlatest :
        ∀ q, P.handle = some q → latest_region (history (.dispatch k) v'.log) = some q := by
      intro q hq
      obtain ⟨g, -, hfresh⟩ := hv.filled.fresh q hq
      rw [(exec_changes hx).log, latest_region_cons (by simp)]
      exact hfresh.latest
    refine Contract.Safe.done (P := fun z => phase z.log (.dispatch k) = .published i ∧
      ∀ q, P.handle = some q → latest_region (history (.dispatch k) z.log) = some q)
        ?_ ⟨hphase, hlatest⟩ ?_
    · exact fun z z' h hz => ⟨(interferes_phase h).trans hz.1,
        fun q hq => (interferes_history h).symm ▸ hz.2 q hq⟩
    · exact fun z _ hz hextends => ⟨⟨hz.1, hw.extends_.trans hextends⟩, hz.2⟩

/-- What a dispatch call leaves when it returns. -/
def Returned (D : Deployment) (w₀ : World) (k : ℕ) (u : World) : Prop :=
  ∃ p, Since w₀ (.dispatch k) p u ∧ (D.Serializes → ∀ i, p ≠ .holding i)

/-- Registering the request and signalling the workers. -/
theorem register_safe {k : ℕ} {call : DispatchCall} (hcall : w₀.calls[k]? = some call)
    (hp : p = .published i ∨ p = .kept i) (hw : Since w₀ (.dispatch k) p w) :
    (D.protocol hD).Safe (.dispatch k) (do
      pending_insert call.req_id k
      signal .request
      pure (.ok ()) : Program bus (Except SlotBusError Unit)) (fun _ => D.Returned w₀ k) w := by
  refine safe_step hw (fun u _ hu => ⟨knows_dispatch hcall hu.extends_,
    .register (i := i) (hu.extends_.calls k call hcall) ?_⟩) ?_
  · rw [hu.phase_eq]
    exact hp
  · intro u x r u' _ _ _ hu'
    have hadvance :
        Entry.advance ⟨.dispatch k, .pending_insert call.req_id k, r⟩ p = .registered i := by
      rcases hp with rfl | rfl <;> rfl
    rw [hadvance] at hu'
    refine safe_step hu' (fun v _ hv => ⟨knows_dispatch hcall hv.extends_, .bystander trivial⟩) ?_
    intro v x r v' _ _ _ hv'
    exact safe_done hv' fun z _ hz => ⟨_, hz, fun _ _ => nofun⟩

/-- `SlotBus::dispatch`. -/
theorem dispatch_safe {k : ℕ} {call : DispatchCall} (hcall : w₀.calls[k]? = some call)
    (hI : D.Invariant w) (hw : Since w₀ (.dispatch k) .idle w) :
    (D.protocol hD).Safe (.dispatch k) (D.dispatch k call).run (fun _ => D.Returned w₀ k) w := by
  have hslots : ∀ i ∈ List.range D.hub_region.num_slots, i < D.num_slots :=
    fun i hi => List.mem_range.mp hi
  unfold dispatch
  refine Contract.Safe.bind_except (Contract.Safe.lift
    ((claim_first_safe hcall hslots hw).mono fun result u hIu hu => ?_)) hI
  rcases hu with ⟨rfl, hu⟩ | ⟨i, rfl, hi, hu⟩
  · exact safe_done hu fun v _ hv => ⟨_, hv, fun _ _ => nofun⟩
  · cases hmeta : D.request_codec.to_allocvec call.meta_ with
    | error e =>
        simp only
        refine safe_done hu fun v _ hv => ⟨_, hv, fun hser => ?_⟩
        obtain ⟨bytes, hbytes⟩ := hser call.meta_
        rw [hmeta] at hbytes
        cases hbytes
    | ok meta_bytes =>
        simp only
        refine safe_step hu (fun v hIv hv => ⟨knows_dispatch hcall hv.extends_,
          .drop_request ((hIv.ledger.writing i k).mpr hv.phase_eq)⟩) ?_
        intro v x r v' _ hIv' _ hv'
        refine Contract.Safe.bind_except
          (p := ExceptT.mk (write_request D.target D.hub_region i call.req_id
            (method_to_u8 call.method) meta_bytes call.body D.config))
          ((write_request_safe hcall hmeta hi hIv' hv').mono fun result z hIz hz => ?_) hIv'
        cases result with
        | error e => exact safe_done hz fun y _ hy => ⟨_, hy, fun _ _ => nofun⟩
        | ok overflow =>
            obtain ⟨hz, hlatest⟩ := hz
            cases overflow with
            | none => exact register_safe hcall (.inl rfl) hz
            | some q =>
                refine safe_act
                  (fun y y' h hy => (interferes_history h).symm ▸ hy) (hlatest q rfl) hz
                  (fun y _ hy hsince => ⟨knows_dispatch hcall hsince.extends_,
                    .keep_request hsince.phase_eq hy⟩) ?_
                intro y x r y' _ _ _ _ hy'
                exact register_safe hcall (.inr rfl) hy'

/-- Finishing does not claim a slot. -/
theorem finish_advance {result : Except SlotBusError Unit} {x : Unit} (i : ℕ)
    (h : Entry.advance ⟨t, .finish result, x⟩ p = .holding i) : p = .holding i := by
  by_cases hfail : ∃ e, result = .error (.Serialization e) ∧ p = .idle
  · obtain ⟨e, rfl, rfl⟩ := hfail
    cases h
  · rwa [advance_finish hfail] at h

theorem dispatch_program_safe {k : ℕ} {call : DispatchCall} (hcall : w.calls[k]? = some call)
    (hI : D.Invariant w) (hw : phase w.log (.dispatch k) = .idle) :
    (D.protocol hD).Safe (.dispatch k) (D.dispatch_program k call)
    (fun _ => D.Idle (.dispatch k)) w := by
  unfold dispatch_program
  refine Contract.Safe.bind ((dispatch_safe hcall hI ⟨hw, .refl w⟩).mono fun result u _ hu => ?_) hI
  obtain ⟨p, hu, hne⟩ := hu
  refine safe_step hu (fun v _ hv => ⟨knows_dispatch hcall hv.extends_, .finish⟩) ?_
  intro v x r v' _ _ _ hv'
  refine safe_done hv' fun z _ hz hser i hi => ?_
  rw [hz.phase_eq] at hi
  exact hne hser i (finish_advance i hi)

/-! ### Replies -/

/-- What a `send_response` call knows after `write_response`. -/
def AfterAnswer (k c : ℕ) (reply : Reply) (i : ℕ)
    (result : Except SlotBusError (Option OverflowRegion)) (u : World) : Prop :=
  match result with
  | .ok overflow => phase u.log (.respond c) = .published i ∧
      ∀ r, overflow = some r → latest_region (history (.respond c) u.log) = some r
  | .error _ => Responding i k c reply u

/-- Writing and publishing the response. -/
theorem write_response_safe {c k : ℕ} {reply : Reply} {meta_bytes : List UInt8}
    (hmeta : D.response_codec.to_allocvec ⟨reply.content_type, reply.headers⟩ = .ok meta_bytes)
    (hi : i < D.num_slots) (hw : Responding i k c reply w) :
    (D.protocol hD).Safe (.respond c)
    (write_response D.target D.worker_region i reply.status meta_bytes
      reply.body D.config).run (AfterAnswer k c reply i) w := by
  refine Tenancy.write_response (T := respond_tenancy hD c k i reply hi) (m := w.mem)
    ⟨hw, .refl _ _⟩ ?_ ?_
  · exact fun e u _ _ hu => hu
  · intro P u hIu hu
    refine Contract.Safe.act Tenancy.stable_written hu (fun v _ hv =>
      ⟨(List.getElem?_eq_some_iff.mp hv.holds.reply_eq).1,
        .answer (.response hv.holds.owner_eq hv.holds.sole)
        ⟨reply, meta_bytes, P, w.mem, hv.holds.reply_eq, hmeta, hv.filled⟩⟩) ?_
    intro v x r v' hIv hv _ hx
    have hphase : phase v'.log (.respond c) = .published i := by
      rw [(exec_changes hx).log, phase_cons_self]
      rfl
    have hlatest :
        ∀ q, P.handle = some q → latest_region (history (.respond c) v'.log) = some q := by
      intro q hq
      obtain ⟨g, -, hfresh⟩ := hv.filled.fresh q hq
      rw [(exec_changes hx).log, latest_region_cons (by simp)]
      exact hfresh.latest
    refine Contract.Safe.done (P := fun z => phase z.log (.respond c) = .published i ∧
      ∀ q, P.handle = some q → latest_region (history (.respond c) z.log) = some q)
        ?_ ⟨hphase, hlatest⟩ ?_
    · exact fun z z' h hz => ⟨(interferes_phase h).trans hz.1,
        fun q hq => (interferes_history h).symm ▸ hz.2 q hq⟩
    · exact fun z _ hz => hz

/-- A reply that has been launched stays. -/
def Replied (c : ℕ) (u : World) : Prop := u.Knows (.respond c)

theorem replied_stable {c : ℕ} : (D.protocol hD).Stable t (Replied c) := by
  intro u u' h hu
  have hextends :=
    (interferes_extends h).replies c _ (List.getElem?_eq_getElem (hu : c < u.replies.length))
  exact (List.getElem?_eq_some_iff.mp hextends).1

theorem replied_exec {c : ℕ} {a : Action} {x : Choice} {r : Answer a}
    {u u' : World} (h : Replied c u) (hx : (machine D.target).exec t a x u = some (r, u')) :
    Replied c u' := by
  show c < u'.replies.length
  rw [(exec_changes hx).replies]
  exact h

/-- `SlotWorker::send_response`. -/
theorem send_response_safe {c k wk : ℕ} {reply : Reply} (hi : i < D.num_slots)
    (hw : Responding i k c reply w) :
    (D.protocol hD).Safe (.respond c)
    (D.send_response wk i reply.status reply.body reply.content_type
      reply.headers).run (fun _ => Replied c) w := by
  have hlt : Replied c w := (List.getElem?_eq_some_iff.mp hw.reply_eq).1
  unfold send_response
  cases hmeta : D.response_codec.to_allocvec ⟨reply.content_type, reply.headers⟩ with
  | error e =>
      simp only [hmeta]
      exact Contract.Safe.done replied_stable hlt fun _ _ hu => hu
  | ok meta_bytes =>
      simp only [hmeta]
      refine Contract.Safe.act (respond_tenancy hD c k i reply hi).stable hw (fun u _ hu =>
        ⟨(List.getElem?_eq_some_iff.mp hu.reply_eq).1,
          .drop_response (.response hu.owner_eq hu.sole)⟩) ?_
      intro u x r u' _ hu hI' hx
      have hu' : Responding i k c reply u' := hu.of_silent hx trivial rfl
      refine Contract.Safe.bind_except
        (p := attempt (write_response D.target D.worker_region i reply.status
          meta_bytes reply.body D.config)) (Contract.Safe.lift
            ((safe_extends (write_response_safe hmeta hi hu')).mono fun result v _ hv => ?_)) hI'
      have hreplied : Replied c v := by
        have := hv.2.replies c reply hu'.reply_eq
        exact (List.getElem?_eq_some_iff.mp this).1
      cases result with
      | error e =>
          refine Contract.Safe.act (respond_tenancy hD c k i reply hi).stable hv.1 (fun z _ hz =>
            ⟨(List.getElem?_eq_some_iff.mp hz.reply_eq).1,
              .give_up (.response hz.owner_eq hz.sole)⟩) ?_
          intro z x r z' _ hz _ hx'
          have hz' : Replied c z := (List.getElem?_eq_some_iff.mp hz.reply_eq).1
          exact Contract.Safe.done replied_stable (replied_exec hz' hx') fun _ _ hy => hy
      | ok overflow =>
          obtain ⟨⟨hphase, hlatest⟩, -⟩ := hv
          have hsignal : ∀ y : World, Replied c y → (D.protocol hD).Safe (.respond c)
              (.act (.signal .response) fun _ =>
                .done (.ok ()) : Program bus (Except SlotBusError Unit))
              (fun _ => Replied c) y := by
            intro y hy
            refine Contract.Safe.act replied_stable hy (fun z _ hz => ⟨hz, .bystander trivial⟩) ?_
            intro z x r z' _ hz _ hx'
            exact Contract.Safe.done replied_stable (replied_exec hz hx') fun _ _ hy => hy
          cases overflow with
          | none => exact hsignal v hreplied
          | some q =>
              refine Contract.Safe.act (P := fun z => (phase z.log (.respond c) = .published i ∧
                latest_region (history (.respond c) z.log) = some q) ∧ Replied c z) ?_
                ⟨⟨hphase, hlatest q rfl⟩, hreplied⟩
                  (fun z _ hz => ⟨hz.2, .keep_response hz.1.1 hz.1.2⟩) ?_
              · exact fun z z' h hz => ⟨⟨(interferes_phase h).trans hz.1.1,
                  (interferes_history h).symm ▸ hz.1.2⟩, replied_stable z z' h hz.2⟩
              · exact fun z x r z' _ hz _ hx' => hsignal z' (replied_exec hz.2 hx')

/-- What a new reply finds. -/
theorem responding_of_launch {reply : Reply} {inv : Invocation} (hI : D.Invariant w)
    (hinv : w.invocations[reply.invocation]? = some inv) (hadmits : Admits w (.respond reply)) :
    ∃ k, Responding inv.slot k w.replies.length reply
      { w with replies := w.replies ++ [reply] } := by
  have hslot : w.ledger.slot_of reply.invocation = some inv.slot := by simp [World.ledger, hinv]
  have hfailed : ∀ d, w.ledger.invocation_of d = some reply.invocation →
      phase w.log (.respond d) = .failed := by
    intro d hd
    obtain ⟨earlier, hearlier, heq⟩ := Option.map_eq_some_iff.mp hd
    exact hadmits d earlier hearlier heq
  have hinvocation := (hI.ledger.handling inv.slot reply.invocation).mpr
    ⟨hslot, fun d hd => .inr (hfailed d hd)⟩
  obtain ⟨k, hk⟩ : ∃ k, owner w.log inv.slot = .handling reply.invocation k := by
    change (owner w.log inv.slot).invocation = some reply.invocation at hinvocation
    cases ho : owner w.log inv.slot with
    | handling n k =>
        rw [ho] at hinvocation
        obtain rfl := Option.some.inj hinvocation
        exact ⟨k, rfl⟩
    | _ =>
        rw [ho] at hinvocation
        cases hinvocation
  refine ⟨k, hk, ?_, by simp⟩
  rw [ledger_of_reply]
  refine ⟨by simp, hI.phase_of_unknown (t := .respond w.replies.length) (lt_irrefl _),
    fun d hd hn => ?_⟩
  simp only [Function.update_of_ne hd] at hn
  exact hfailed d hn

theorem respond_program_safe {c k : ℕ} {reply : Reply} {inv : Invocation} (hI : D.Invariant w)
    (hw : Responding inv.slot k c reply w) :
    (D.protocol hD).Safe (.respond c) (D.respond_program inv reply)
    (fun _ => D.Idle (.respond c)) w := by
  have hi : inv.slot < D.num_slots := hI.range _ (by simp [hw.owner_eq])
  unfold respond_program
  refine Contract.Safe.bind ((send_response_safe hi hw).mono fun result u _ hu => ?_) hI
  refine Contract.Safe.act replied_stable hu (fun v _ hv => ⟨hv, .finish⟩) ?_
  exact fun v x r v' _ _ _ _ =>
    Contract.Safe.done (P := fun _ => True) (fun _ _ _ _ => trivial) trivial
    fun _ _ _ => trivial

/-! ### Soundness -/

/-- **Every program that is launched follows the protocol.** -/
theorem launch_safe {e : Launch} {p : Program bus Unit} {w' : World} (hI : D.Invariant w)
    (hadmits : Admits w e) (hidle : D.Idle t w) (h : D.launch e w = some (t, p, w')) :
    (D.protocol hD).Safe t p (fun _ => D.Idle t) w' := by
  have hI' := launch_invariant hI h
  rcases launch_cases h with ⟨call, rfl, rfl, rfl, rfl⟩ | ⟨rfl, rfl, rfl,
    rfl⟩ | ⟨l, rfl, rfl, rfl, rfl⟩ |
    ⟨reply, inv, rfl, hinv, rfl, rfl, rfl⟩
  · exact dispatch_program_safe (by simp) hI'
      (hI.phase_of_unknown (t := .dispatch w.calls.length) (lt_irrefl _))
  · exact watcher_pass_safe
  · exact receive_pass_safe hidle
  · obtain ⟨k, hk⟩ := responding_of_launch hI hinv hadmits
    exact respond_program_safe hI' hk

/-- A bus before anything has happened: the status words of all slots are free. -/
structure Fresh (D : Deployment) (w : World) : Prop where
  log : w.log = []
  calls : w.calls = []
  invocations : w.invocations = []
  replies : w.replies = []
  pending : ∀ id, w.pending id = none
  resolved : ∀ k, w.resolved k = none
  status : ∀ i < D.num_slots, slot_status w.mem i = SLOT_FREE

theorem Fresh.invariant (h : D.Fresh w) : D.Invariant w where
  consistent := consistent_of_log_eq_nil h.log
  ledger := Ledger.initial_invariant (fun i => by rw [World.ledger, h.log]; rfl)
    (fun t => by rw [World.ledger, h.log]; rfl) (fun n => by simp [World.ledger, h.invocations])
  status i hi := by
    rw [h.status i hi, h.log]
    rfl
  range i hi := by
    rw [h.log] at hi
    exact absurd rfl hi
  known e he := by simp [h.log] at he
  replied c reply hc := by simp [h.replies] at hc
  request i k hk := by
    rw [h.log] at hk
    cases hk
  response i n k c hk := by
    rw [h.log] at hk
    cases hk
  handed i n k hk := by
    rw [h.log] at hk
    rcases hk with hk | ⟨c, hk⟩ <;> cases hk
  invoked n k hk := by
    rw [h.log] at hk
    cases hk
  pending id k hk := by simp [h.pending] at hk
  resolved k response hk := by simp [h.resolved] at hk

/-- **Soundness.**  In every state that a run reaches the invariant holds, and every thread follows
the protocol. -/
theorem reachable_wellBehaved (hD : D.Sound) {discipline : Discipline bus Thread World Launch}
    (hadmits : ∀ e u, discipline.launch e u → Admits u e) (hw : D.Fresh w)
    {σ : Configuration bus Thread World} (h : Reachable D.system discipline (Start w) σ) :
    (D.protocol hD).WellBehaved σ := by
  refine Contract.reachable_wellBehaved hadmits
    (fun e u t p u' hI ha hidle hl => launch_safe hI ha hidle hl) ?_ h
  refine ⟨hw.invariant, fun t => Contract.Safe.done (P := D.Idle t) ?_ ?_ fun _ _ hu => hu⟩
  · intro u u' hi hu
    cases t with
    | dispatch k => exact fun hser i => (interferes_phase hi).symm ▸ hu hser i
    | receive l => exact fun i => (interferes_phase hi).symm ▸ hu i
    | _ => trivial
  · have hidle : ∀ u, phase w.log u = .idle := fun u => by
      rw [hw.log]
      rfl
    cases t with
    | dispatch k => exact fun _ i => by rw [Start, hidle]; nofun
    | receive l => exact fun i => by rw [Start, hidle]; nofun
    | _ => trivial

end Deployment
end SlotBus
