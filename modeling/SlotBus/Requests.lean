import SlotBus.Exclusive

/-!
# The request that a handler gets

A request goes through a byte for its method and through its metadata, whose lists of pairs the
receive loop collects into maps.

* `collect_eq_last_value`, `method_presented` — what remains of a list of pairs and of a method;
* `read_shown_safe` — what a receive loop reads shows the call that it comes from, whatever the size
  of the metadata;
* `Reaches.allShown` — **in every run** each handler gets a request that shows its call;
* `handler_sees_request` — the exact sense in which that is the request that was dispatched.
-/

namespace SlotBus

open ByteMemory AtomicProgram AtomicProgram.Program

/-! ### Maps -/

/-- The value of the last pair with this name. -/
def last_value (pairs : List (String × String)) (name : String) : Option String :=
  ((pairs.filter fun p => p.1 = name).getLast?).map Prod.snd

theorem last_value_append (pairs : List (String × String)) (p : String × String) (name : String) :
    last_value (pairs ++ [p]) name = if name = p.1 then some p.2 else last_value pairs name := by
  unfold last_value
  rw [List.filter_append]
  by_cases h : name = p.1
  · subst h
    rw [if_pos rfl, List.filter_cons_of_pos (by simp), List.filter_nil, List.getLast?_append]
    rfl
  · rw [if_neg h, List.filter_cons_of_neg (by simp [Ne.symm h]), List.filter_nil, List.append_nil]

/-- **Collecting pairs into a map keeps the last pair of each name.** -/
theorem collect_eq_last_value (pairs : List (String × String)) :
    collect pairs = last_value pairs := by
  induction pairs using List.reverseRecOn with
  | nil => rfl
  | append_singleton pairs p ih =>
      have hfold : collect (pairs ++ [p]) = Function.update (collect pairs) p.1 (some p.2) := by
        unfold collect
        rw [List.foldl_append]
        rfl
      funext name
      rw [hfold, ih, last_value_append, Function.update_apply]

/-- A value in the map comes from a pair. -/
theorem mem_of_last_value {pairs : List (String × String)} {name v : String}
    (h : last_value pairs name = some v) :
    (name, v) ∈ pairs := by
  obtain ⟨p, hp, rfl⟩ := Option.map_eq_some_iff.mp h
  have hmem := List.mem_of_getLast? hp
  obtain ⟨hpairs, hname⟩ := List.mem_filter.mp hmem
  obtain rfl := of_decide_eq_true hname
  exact hpairs

/-- A name that is in the list has a value. -/
theorem last_value_isSome {pairs : List (String × String)} {p : String × String} (hp : p ∈ pairs) :
    ∃ v, last_value pairs p.1 = some v := by
  have hne : pairs.filter (fun q => q.1 = p.1) ≠ [] := by
    intro hnil
    have hmem : p ∈ pairs.filter fun q => q.1 = p.1 := List.mem_filter.mpr ⟨hp, decide_eq_true rfl⟩
    rw [hnil] at hmem
    cases hmem
  exact ⟨_, congrArg (Option.map Prod.snd) (List.getLast?_eq_some_getLast hne)⟩

/-- **Every pair is in the map if and only if no name has two values.** -/
theorem last_value_contains_iff (pairs : List (String × String)) :
    (∀ p ∈ pairs, last_value pairs p.1 = some p.2) ↔ ∀ p ∈ pairs, ∀ q ∈ pairs,
      p.1 = q.1 → p.2 = q.2 := by
  constructor
  · intro h p hp q hq hname
    have hpq := (h p hp).symm.trans ((congrArg (last_value pairs) hname).trans (h q hq))
    exact Option.some.inj hpq
  · intro h p hp
    obtain ⟨v, hv⟩ := last_value_isSome hp
    rw [hv]
    exact congrArg some (h _ (mem_of_last_value hv) p hp rfl)

/-! ### Methods -/

/-- The methods that have a byte. -/
def known_methods : List String := ["GET", "POST", "PUT", "DELETE", "PATCH", "HEAD", "OPTIONS"]

/-- The method that a request comes with: one that has no byte comes as the default. -/
def presented_method (method : String) : String := if method ∈ known_methods then method else "GET"

/-- **A method in the table survives its encoding, and any other is replaced.** -/
theorem method_presented (method : String) :
    u8_to_method (method_to_u8 method) = presented_method method := by
  unfold presented_method
  by_cases h : method ∈ known_methods
  · rw [if_pos h]
    simp only [known_methods, List.mem_cons, List.not_mem_nil, or_false] at h
    rcases h with rfl | rfl | rfl | rfl | rfl | rfl | rfl <;> decide
  · rw [if_neg h]
    simp only [known_methods, List.mem_cons, List.not_mem_nil, or_false, not_or] at h
    obtain ⟨h1, h2, h3, h4, h5, h6, h7⟩ := h
    unfold method_to_u8
    rw [if_neg h1, if_neg h2, if_neg h3, if_neg h4, if_neg h5, if_neg h6, if_neg h7]
    rfl

/-! ### Metadata -/

/-- What is documented of the serializer's format: a value is not read before its last byte. -/
def Codec.Truncation {α : Type} (codec : Codec α) : Prop :=
  ∀ v bytes n, codec.to_allocvec v = .ok bytes → n < bytes.length →
    ∀ u, codec.from_bytes (bytes.take n) ≠ .ok u

namespace Deployment

variable {D : Deployment} {hD : D.Sound} {t : Thread} {w : World} {i : ℕ}

/-- The request shows the method and the metadata of the call: the length of the metadata is
recorded in 16 bits, and as many bytes are deserialized. -/
def Shows (D : Deployment) (call : DispatchCall) (request : Request) : Prop :=
  ∃ bytes m, D.request_codec.to_allocvec call.meta_ = .ok bytes ∧
    D.request_codec.from_bytes (bytes.take (bytes.length % 2 ^ 16)) = .ok m ∧
    request = Request.build request.req_id (method_to_u8 call.method) m request.body

end Deployment

/-- The body of `read_payload`: what it reads when it has the metadata. -/
def read_body (d : Direction) (target : Target) (region : ShmRegion) (slot_index : ℕ)
    (config : SlotBusConfig) :
    Fallible (List UInt8) := do
  let body_len ← read_field slot_index (d.fields + 12) 4
  let marker ← read_field slot_index (d.fields + 16) 1
  if body_len = 0 then pure []
  else
    match overflow_generation (UInt8.ofNat marker) with
    | none => do
        let body_offset ← read_field slot_index (d.fields + 8) 4
        region.heap_read_checked body_offset body_len
    | some generation => do
        let name ← or_panic (d.overflow_name_gen config target slot_index generation)
        ShmRegion.read_overflow name body_len

section Reading

variable {α β : Type} {target : Target} {region : ShmRegion} {config : SlotBusConfig} {i : ℕ}

theorem read_payload_eq (d : Direction) (codec : Codec α) :
    read_payload d codec target region i config = (do
      let meta_offset ← read_field i d.fields 4
      let meta_len ← read_field i (d.fields + 4) 2
      let meta_bytes ← region.heap_read_checked meta_offset meta_len
      let m ← from_except ((codec.from_bytes meta_bytes).mapError .Serialization)
      let body ← read_body d target region i config
      pure (m, body)) := by
  unfold read_payload read_body
  simp only [bind_assoc]
  refine bind_congr fun meta_offset => bind_congr fun meta_len => bind_congr fun meta_bytes => ?_
  refine bind_congr fun m => bind_congr fun body_len => bind_congr fun marker => ?_
  split
  · rfl
  · cases overflow_generation (UInt8.ofNat marker) with
    | none => simp only [bind_assoc]
    | some generation => simp only [bind_assoc]

theorem read_body_confined (d : Direction) :
    (read_body d target region i config).run.Confined Action.looks := by
  refine confined_bind (confined_lift (read_field_confined _ _)) fun body_len => ?_
  refine confined_bind (confined_lift (read_field_confined _ _)) fun marker => ?_
  split
  · trivial
  · split
    · exact confined_bind (confined_lift (read_field_confined _ _)) fun body_offset =>
        heap_read_confined _ _
    · refine confined_bind (or_panic_confined _) fun name => ?_
      exact read_overflow_confined (fun _ => trivial) (fun _ _ => trivial) name _

variable {L : Type} {M : System bus Thread World Choice L} {C : Contract M}
    {t : Thread} {H : SlotHalf}
  {K : Lease C t H} {m : Memory} {writer : Thread} {body meta_bytes : List UInt8}
  {P : Placement} {w : World}

/-- **Reading metadata of any size.**  As many bytes are deserialized as the length field says. -/
theorem Lease.read_metadata (hf : K.faithful) {codec : Codec α} {f : α × List UInt8 → Fallible β}
    {Q : Except SlotBusError β → World → Prop} (h : K.View m writer body P w)
    (hr : H.Recorded meta_bytes body P m)
    (hcodec : ∀ e u, C.invariant u → K.holds u → Q (.error (.Serialization e)) u)
    (hk : ∀ v u, codec.from_bytes (meta_bytes.take (meta_bytes.length % 2 ^ 16)) = .ok v →
      C.invariant u →
      K.holds u → C.Safe t (read_body H.direction H.target H.region H.slot H.config >>=
        fun body => f (v, body)).run
        Q u) :
    C.Safe t (SlotBus.read_payload H.direction codec H.target H.region H.slot H.config >>=
      f).run Q w := by
  rw [read_payload_eq]
  simp only [bind_assoc]
  have hle : meta_bytes.length % 2 ^ 16 ≤ meta_bytes.length := Nat.mod_le _ _
  refine Lease.read_field (k := 0) h (by omega) fun w₁ _ h₁ => ?_
  rw [hr.meta_offset]
  refine Lease.read_field h₁ (by omega) fun w₂ _ h₂ => ?_
  rw [hr.meta_len]
  refine Lease.heap_read hf h₂ le_rfl (Nat.add_le_add_left (hle.trans hr.meta_fits) _)
    fun w₃ hw₃ h₃ => ?_
  rw [← read_take _ _ hle, hr.metadata]
  cases hv : codec.from_bytes (meta_bytes.take (meta_bytes.length % 2 ^ 16)) with
  | error e => exact Contract.Safe.done Lease.stable_view h₃ fun u hu hP => hcodec e u hu hP.holds
  | ok v => exact hk v w₃ hv hw₃ h₃.holds

end Reading

namespace Deployment

variable {D : Deployment} {hD : D.Sound} {t : Thread} {w : World} {i : ℕ}

/-- **Metadata of any size is read up to the recorded length.** -/
theorem read_shown_safe (hD : D.Sound) {l k : ℕ} (hf : D.Faithful) (hI : D.Invariant w)
    (hk : owner w.log i = .reading l k) :
    ∃ call, w.calls[k]? = some call ∧ (D.protocol hD).Safe (.receive l)
      (read_request D.request_codec D.target D.worker_region i D.config).run
      (fun result _ => ∀ id method m body, result = .ok (id, method, m, body) →
        D.Shows call (Request.build id method m body)) w := by
  have hi : i < D.num_slots := hI.range i (by simp [hk])
  obtain ⟨call, meta_bytes, P, m, hcall, hmeta, hfilled⟩ :=
    hI.request i k (by rw [hk]; rfl) (by simp [hk])
  refine ⟨call, hcall, ?_⟩
  have hwriter : ∀ (u : World) v, owner u.log i = .reading l k → ¬ Tenant u v .request i := by
    rintro u v hu ⟨hv⟩
    rw [hu] at hv
    cases hv
  let K := slot_lease hD (.receive l) D.worker_region .request i (.reading l k) rfl
    (fun _ _ _ => trivial) hwriter (hD.reader_inTable .request hi) hi (area_reader hD .request i)
    fun hf => hf.heap_lt_writer .response
  obtain ⟨placed, hview, hrecorded, hmethod⟩ : ∃ placed, K.View placed (.dispatch k) call.body P w ∧
      (D.half D.worker_region .request i).Recorded meta_bytes call.body P placed ∧
      UInt8.ofNat (load placed (slot_address i + 40) 1) = method_to_u8 call.method :=
    ⟨_, view_of_filled (d := .request) hk rfl rfl not_false hfilled,
      recorded_of_filled hD hf hi hfilled,
      method_place meta_bytes call.body P (hD.writer_inTable .request hi) call.req_id
        (method_to_u8 call.method) m⟩
  have hrecord : ∀ {k n : ℕ}, 4 ≤ k → k + n ≤ 61 → span (slot_address i + k) n ⊆
      (D.half D.worker_region .request i).area K.faithful :=
    fun h1 h2 => (request_record_subset h1 h2).trans Set.subset_union_left
  unfold read_request
  refine Lease.read hview (hrecord (by omega) (by omega)) fun w₁ _ h₁ => ?_
  refine Lease.read h₁ (hrecord (by omega) (by omega)) fun w₂ _ h₂ => ?_
  refine Lease.read_metadata (K := K) hf h₂ hrecorded (fun e u _ _ => nofun) ?_
  intro v u hv hu ho
  have hbody :
      (D.protocol hD).Safe (.receive l) (read_body .request D.target D.worker_region i D.config).run
      (fun _ z => owner z.log i = .reading l k) u :=
    safe_looking rfl (fun _ _ _ => trivial)
      ((read_body_confined .request).mono fun _ ha => ha.bystander) ho
  refine Contract.Safe.bind_except (p := read_body .request D.target D.worker_region i D.config)
    (hbody.mono fun result z _ hz => ?_) hu
  have htrivial : ∀ {r : Except SlotBusError (String × UInt8 × RequestMeta × List UInt8)},
      (∀ id method m body, r = .ok (id, method, m, body) →
        D.Shows call (Request.build id method m body)) →
      (D.protocol hD).Safe (.receive l) (.done r) (fun result _ => ∀ id method m body,
        result = .ok (id, method, m, body) → D.Shows call (Request.build id method m body)) z :=
    fun h => Contract.Safe.done (P := fun _ => True) (fun _ _ _ _ => trivial) trivial fun _ _ _ => h
  cases result with
  | error e => exact htrivial nofun
  | ok b =>
      refine htrivial fun id method m' b' hresult => ?_
      obtain ⟨rfl, hrest⟩ := Prod.mk.inj (Except.ok.inj hresult)
      obtain ⟨rfl, hpayload⟩ := Prod.mk.inj hrest
      obtain ⟨rfl, rfl⟩ := Prod.mk.inj hpayload
      refine ⟨meta_bytes, v, hmeta, hv, ?_⟩
      rw [← hmethod]
      rfl

/-! ### Every invocation shows the request it was given -/

variable (D) in
/-- A receive loop hands over only a request that shows its call. -/
def ShownBy : Thread → Action → World → Prop
  | .receive l, .handle _ i request, w => ∀ k, owner w.log i = .reading l k →
      ∃ call, w.calls[k]? = some call ∧ D.Shows call request
  | _, _, _ => True

variable (D) in
/-- The requests of all invocations so far show the calls that they come from. -/
def AllShown (w : World) : Prop :=
  ∀ (n : ℕ) inv, w.invocations[n]? = some inv →
    ∃ k call, received n w.log = some k ∧ w.calls[k]? = some call ∧ D.Shows call inv.request

variable {a : Action} {c : Choice} {r : Answer a} {w' : World}

theorem AllShown.exec (hI : D.Invariant w) (hl : D.Legal w t a) (hs : D.ShownBy t a w)
    (hx : (machine D.target).exec t a c w = some (r, w')) (h : D.AllShown w) : D.AllShown w' := by
  have hw := hI.extends hx
  have hold : ∀ (n : ℕ) inv, w.invocations[n]? = some inv →
      ∃ k call, received n w'.log = some k ∧ w'.calls[k]? = some call ∧
        D.Shows call inv.request := by
    intro n inv hinv
    obtain ⟨k, call, hreceived, hcall, hshows⟩ := h n inv hinv
    exact ⟨k, call, hw.received n k hreceived, hw.calls k call hcall, hshows⟩
  intro n inv hinv
  rcases (exec_changes hx).invocations with heq | ⟨wk, i, request, rfl, heq⟩
  · rw [heq] at hinv
    exact hold n inv hinv
  · rw [heq] at hinv
    by_cases hlt : n < w.invocations.length
    · rw [List.getElem?_append_left hlt] at hinv
      exact hold n inv hinv
    · -- the new invocation
      obtain ⟨rfl, rfl⟩ : n = w.invocations.length ∧ inv = ⟨wk, i, request⟩ := by
        rw [List.getElem?_append_right (Nat.le_of_not_lt hlt)] at hinv
        obtain ⟨hlast, hnew⟩ := List.getElem?_eq_some_iff.mp hinv
        rw [List.length_singleton] at hlast
        exact ⟨by omega, hnew.symm.trans (List.getElem_singleton hlast)⟩
      cases hl with
      | bystander hb => exact hb.elim
      | own _ ho => exact ho.elim
      | @invoke l _ k _ howner _ =>
          obtain ⟨call, hcall, hshows⟩ := hs k howner
          refine ⟨k, call, ?_, hw.calls k call hcall, hshows⟩
          obtain ⟨u, hu, rfl⟩ := exec_iff.mp hx
          obtain ⟨rfl, rfl⟩ := Prod.mk.inj (Option.some.inj hu)
          show (if w.invocations.length == w.invocations.length then (owner w.log i).call else _) =
              some k
          rw [if_pos (beq_self_eq_true _), howner]
          rfl

theorem AllShown.launch {e : Launch} {p : Program bus Unit} (hx : D.launch e w = some (t, p, w'))
    (h : D.AllShown w) : D.AllShown w' := by
  obtain ⟨calls, replies, rfl⟩ := launch_eq hx
  intro n inv hinv
  obtain ⟨k, call, hreceived, hcall, hshows⟩ := h n inv hinv
  exact ⟨k, call, hreceived, (extends_of_append _ _ _).calls k call hcall, hshows⟩

/-- The contract of a bus whose receive loops hand over only requests that show their calls. -/
def shown_protocol (hD : D.Sound) : Contract D.system :=
  (D.protocol hD).strengthen D.ShownBy D.AllShown
  (fun _ _ _ _ _ _ hI hl hs hx h => h.exec hI hl.2 hs hx)
    fun _ _ _ _ _ hx h => h.launch hx

/-- A program that invokes no handler. -/
theorem shown_of_protocol {α : Type} {p : Program bus α} {Q : α → World → Prop}
    (h : (D.protocol hD).Safe t p Q w) (hp : p.Confined fun a => ∀ u, D.ShownBy t a u) :
    (D.shown_protocol hD).Safe t p Q w :=
  h.strengthen hp

theorem noSlot_of_exec (hx : (machine D.target).exec t a c w = some (r, w'))
    (h : ∀ j, Entry.advance ⟨t, a, r⟩ (phase w.log t) ≠ .holding j) : NoSlot t w' := by
  intro j
  rw [(exec_changes hx).log, phase_cons_self]
  exact h j

/-- A visit of the receive loop. -/
theorem receive_slot_shown (hf : D.Faithful) {l : ℕ} (hi : i < D.num_slots)
    (hw : NoSlot (.receive l) w) :
    (D.shown_protocol hD).Safe (.receive l) (D.receive_slot l i)
    (fun _ => NoSlot (.receive l)) w := by
  have hnone : ∀ {u : World}, NoSlot (.receive l) u →
      (D.shown_protocol hD).Safe (.receive l) (.done ()) (fun _ => NoSlot (.receive l)) u :=
    fun hu => Contract.Safe.done noSlot_stable.strengthen hu fun _ _ hv => hv
  unfold receive_slot
  refine Contract.Safe.act noSlot_stable.strengthen hw
    (fun u _ hu => ⟨⟨trivial, .take hi hu⟩, trivial⟩) ?_
  intro u c b u' hI hu hI' hx
  rcases mem_of_swap hx with ⟨rfl, hs, -⟩ | ⟨rfl, -, -⟩
  · obtain ⟨k, hk⟩ := Owner.eq_ready ((hI.1.status i hi).symm.trans hs)
    have hreading : owner u'.log i = .reading l k := by
      rw [(exec_changes hx).log]
      show Function.update (owner u.log) i _ i = _
      rw [Function.update_self, hk]
    obtain ⟨call, hcall, hhanded⟩ := read_request_safe hI'.1 hreading
    obtain ⟨call', hcall', hshown⟩ := read_shown_safe hD hf hI'.1 hreading
    obtain rfl := Option.some.inj (hcall.symm.trans hcall')
    have hread := shown_of_protocol (safe_extends (hhanded.and hshown))
      ((read_request_confined _).mono fun a ha u => by cases a <;> first | exact ha.elim | trivial)
    refine Contract.Safe.bind
      (p := (read_request D.request_codec D.target D.worker_region i D.config).run)
      (hread.mono fun result v _ hv => ?_) hI'
    obtain ⟨⟨⟨hv, hresult⟩, hshows⟩, hextends⟩ := hv
    have hkept : (D.protocol hD).Stable (.receive l) fun v => owner v.log i = .reading l k ∧
        v.calls[k]? = some call :=
      fun v v' h hv =>
        ⟨(interferes_owner h (hv.1 ▸ rfl)).trans hv.1, (interferes_extends h).calls k call hv.2⟩
    -- one more action, after which the loop holds no slot
    have hlast : ∀ {a : Action} {rest : Answer a → Program bus Unit},
        (∀ z, owner z.log i = .reading l k → z.calls[k]? = some call → D.Legal z (.receive l) a ∧
          D.ShownBy (.receive l) a z) →
        (∀ x p j, Entry.advance ⟨.receive l, a, x⟩ p ≠ .holding j) → (∀ x, rest x = .done ()) →
        (D.shown_protocol hD).Safe (.receive l) (.act a rest) (fun _ => NoSlot (.receive l)) v := by
      intro a rest hlegal hadvance hrest
      refine Contract.Safe.act hkept.strengthen ⟨hv, hextends.calls k call hcall⟩
        (fun z _ hz => ?_) ?_
      · obtain ⟨hlegal, hshown⟩ := hlegal z hz.1 hz.2
        exact ⟨⟨trivial, hlegal⟩, hshown⟩
      · intro z c' x z' _ _ _ hx'
        rw [hrest]
        exact hnone (noSlot_of_exec hx' (hadvance x _))
    cases result with
    | ok x =>
        obtain ⟨id, method, m, body⟩ := x
        refine hlast (fun z hz hcallz =>
          ⟨.invoke hz ⟨call, hcallz, hresult id method m body rfl⟩, ?_⟩) ?_ fun _ => rfl
        · intro k' hk'
          obtain rfl := (Owner.reading.inj (hz.symm.trans hk')).2
          exact ⟨call, hcallz, hshows id method m body rfl⟩
        · intro x p j
          nofun
    | error e =>
        refine hlast (fun z hz _ => ⟨.reject hz, trivial⟩) ?_ fun _ => rfl
        intro x p j
        nofun
  · exact hnone (noSlot_of_exec (a := .compare_exchange i _ _) hx hu)

theorem receive_pass_shown (hf : D.Faithful) {l : ℕ} (hw : NoSlot (.receive l) w) :
    (D.shown_protocol hD).Safe (.receive l) (D.receive_pass l)
    (fun _ => D.Idle (.receive l)) w := by
  unfold receive_pass
  refine Contract.Safe.act noSlot_stable.strengthen hw
    (fun u _ _ => ⟨⟨trivial, .bystander trivial⟩, trivial⟩) ?_
  intro u c b u' _ hu _ hx
  have hu' := noSlot_of_exec (a := .running _) hx hu
  cases b with
  | false => exact Contract.Safe.done noSlot_stable.strengthen hu' fun _ _ hv => hv
  | true =>
      refine Contract.Safe.act noSlot_stable.strengthen hu'
        (fun u _ _ => ⟨⟨trivial, .bystander trivial⟩, trivial⟩) ?_
      intro v c' b v' _ hv hI hx'
      refine for_each_safe noSlot_stable.strengthen
        (fun i hi u _ hu => receive_slot_shown hf ?_ hu) hI
        (noSlot_of_exec (a := .wait _) hx' hv)
      rw [hD.num_slots_eq, List.mem_range] at hi
      exact hi

/-- Every program that is launched hands over only requests that show their calls. -/
theorem launch_shown (hf : D.Faithful) {e : Launch} {p : Program bus Unit} (hI : D.Invariant w)
    (hadmits : Admits w e) (hidle : D.Idle t w) (h : D.launch e w = some (t, p, w')) :
    (D.shown_protocol hD).Safe t p (fun _ => D.Idle t) w' := by
  have hsafe : (D.protocol hD).Safe t p (fun _ => D.Idle t) w' := launch_safe hI hadmits hidle h
  rcases launch_cases h with ⟨call, rfl, rfl, rfl, rfl⟩ | ⟨rfl, rfl, rfl,
    rfl⟩ | ⟨l, rfl, rfl, rfl, rfl⟩ |
    ⟨reply, inv, rfl, hinv, rfl, rfl, rfl⟩
  · exact shown_of_protocol hsafe (.of_forall (fun a u => trivial) _)
  · exact shown_of_protocol hsafe (.of_forall (fun a u => trivial) _)
  · exact receive_pass_shown hf hidle
  · exact shown_of_protocol hsafe (.of_forall (fun a u => trivial) _)

variable {σ : Configuration bus Thread World} {discipline : Discipline bus Thread World Launch}

/-- **In every run each handler sees a request that shows the call that it comes from.** -/
theorem Reaches.allShown (h : D.Reaches discipline σ)
    (hadmits : ∀ e u, discipline.launch e u → Admits u e)
    (hheap : D.hub_region.heap_size < 2 ^ 32) : D.AllShown σ.state := by
  have hf := h.faithful hheap
  obtain ⟨mem, names, segments, next, hsetup, hreach⟩ := h
  have hstart : (D.protocol hsetup.sound).WellBehaved _ :=
    reachable_wellBehaved hsetup.sound hadmits (hsetup.fresh names segments next) .refl
  refine (Contract.reachable_wellBehaved (C := D.shown_protocol hsetup.sound) hadmits
    (fun e u t p u' hI ha hidle hl => launch_shown hf hI.1 ha hidle hl) ?_ hreach).invariant.2
  refine ⟨⟨hstart.invariant, nofun⟩, fun t => ?_⟩
  exact shown_of_protocol (hstart.safe t) trivial

end Deployment

/-! ### What the handler sees -/

/-- No name has two values. -/
def Unambiguous (pairs : List (String × String)) : Prop :=
  ∀ p ∈ pairs, ∀ q ∈ pairs, p.1 = q.1 → p.2 = q.2

/-- The request presents the call: the method is the one dispatched if it has a byte, and the
headers and path parameters are the maps that the lists stand for. -/
structure Presents (call : DispatchCall) (request : Request) : Prop where
  method : request.method = presented_method call.method
  path : request.path = call.meta_.path
  route_pattern : request.route_pattern = call.meta_.route_pattern
  query : request.query = call.meta_.query
  headers : request.headers = last_value call.meta_.headers
  path_params : request.path_params = last_value call.meta_.path_params

/-- The request has all the header pairs and all the path parameters of the call. -/
def Contains (call : DispatchCall) (request : Request) : Prop :=
  (∀ p ∈ call.meta_.headers, request.headers p.1 = some p.2) ∧
    ∀ p ∈ call.meta_.path_params, request.path_params p.1 = some p.2

/-- Two requests that a handler cannot tell apart by their methods and metadata. -/
def Request.Alike (request request' : Request) : Prop :=
  request.method = request'.method ∧ request.path = request'.path ∧
    request.route_pattern = request'.route_pattern ∧
    request.query = request'.query ∧ request.headers = request'.headers ∧
      request.path_params = request'.path_params

/-- The calls ask for the same: the same method, the same path, route pattern and query, and lists
that stand for the same maps. -/
def DispatchCall.Alike (call call' : DispatchCall) : Prop :=
  presented_method call.method = presented_method call'.method ∧
    call.meta_.path = call'.meta_.path ∧
    call.meta_.route_pattern = call'.meta_.route_pattern ∧ call.meta_.query = call'.meta_.query ∧
    last_value call.meta_.headers = last_value call'.meta_.headers ∧
    last_value call.meta_.path_params = last_value call'.meta_.path_params

theorem Presents.contains_iff {call : DispatchCall} {request : Request}
    (h : Presents call request) :
    Contains call request ↔ Unambiguous call.meta_.headers ∧
      Unambiguous call.meta_.path_params := by
  unfold Contains
  rw [h.headers, h.path_params]
  exact and_congr (last_value_contains_iff _) (last_value_contains_iff _)

/-- Calls are presented alike if and only if they ask for the same. -/
theorem Presents.alike_iff {call call' : DispatchCall} {request request' : Request}
    (h : Presents call request) (h' : Presents call' request') :
    request.Alike request' ↔ call.Alike call' := by
  unfold Request.Alike DispatchCall.Alike
  rw [h.method, h.path, h.route_pattern, h.query, h.headers, h.path_params, h'.method,
    h'.path, h'.route_pattern,
    h'.query, h'.headers, h'.path_params]

/-- With a serializer that keeps its promises the request presents the call. -/
theorem Deployment.Shows.presents {D : Deployment} {call : DispatchCall} {request : Request}
    (h : D.Shows call request) (hcodec : D.request_codec.RoundTrip)
    (htruncation : D.request_codec.Truncation) : Presents call request := by
  obtain ⟨bytes, m, hbytes, hm, hrequest⟩ := h
  -- metadata whose length does not fit into its field is rejected
  have hfits : bytes.length % 2 ^ 16 = bytes.length := by
    by_contra hne
    have hle := Nat.mod_le bytes.length (2 ^ 16)
    exact htruncation _ _ _ hbytes (lt_of_le_of_ne hle hne) m hm
  rw [hfits, List.take_length] at hm
  obtain rfl := Except.ok.inj (hm.symm.trans (hcodec _ _ hbytes))
  rw [hrequest]
  exact ⟨method_presented _, rfl, rfl, rfl, collect_eq_last_value _, collect_eq_last_value _⟩

/-- **The handler sees the request that was dispatched**: its method if that is in the table, and as
a map each list of pairs, so that it has every pair if and only if no name has two values.  Two
calls are presented alike if and only if they ask for the same. -/
theorem handler_sees_request {D : Deployment} {σ : Configuration bus Thread World}
    (h : D.Reaches (.launching Answers_once) σ) (hheap : D.hub_region.heap_size < 2 ^ 32)
    (hcodec : D.request_codec.RoundTrip) (htruncation : D.request_codec.Truncation) :
    (∀ (n : ℕ) inv, σ.state.invocations[n]? = some inv →
      ∃ k call, received n σ.state.log = some k ∧ σ.state.calls[k]? = some call ∧
        Presents call inv.request ∧
        (Contains call inv.request ↔ Unambiguous call.meta_.headers ∧
          Unambiguous call.meta_.path_params)) ∧
    ∀ (n n' k k' : ℕ) inv inv' call call', σ.state.invocations[n]? = some inv →
      σ.state.invocations[n']? = some inv' →
      received n σ.state.log = some k → received n' σ.state.log = some k' →
        σ.state.calls[k]? = some call →
      σ.state.calls[k']? = some call' → (inv.request.Alike inv'.request ↔ call.Alike call') := by
  have hshown := h.allShown (fun e u he => Answers_once.admits he) hheap
  have hpresents : ∀ (n : ℕ) inv, σ.state.invocations[n]? = some inv →
      ∃ k call, received n σ.state.log = some k ∧ σ.state.calls[k]? = some call ∧
        Presents call inv.request := by
    intro n inv hinv
    obtain ⟨k, call, hreceived, hcall, hshows⟩ := hshown n inv hinv
    exact ⟨k, call, hreceived, hcall, hshows.presents hcodec htruncation⟩
  constructor
  · intro n inv hinv
    obtain ⟨k, call, hreceived, hcall, hpresent⟩ := hpresents n inv hinv
    exact ⟨k, call, hreceived, hcall, hpresent, hpresent.contains_iff⟩
  · intro n n' k k' inv inv' call call' hinv hinv' hk hk' hcall hcall'
    obtain ⟨j, other, hj, hother, hpresent⟩ := hpresents n inv hinv
    obtain ⟨j', other', hj', hother', hpresent'⟩ := hpresents n' inv' hinv'
    obtain rfl := Option.some.inj (hk.symm.trans hj)
    obtain rfl := Option.some.inj (hk'.symm.trans hj')
    obtain rfl := Option.some.inj (hcall.symm.trans hother)
    obtain rfl := Option.some.inj (hcall'.symm.trans hother')
    exact hpresent.alike_iff hpresent'

theorem small_codec_truncation {α : Type} [DecidableEq α] (v : α) (bytes : List UInt8) :
    (small_codec v bytes).Truncation := by
  intro u b n h hn x hx
  simp only [small_codec] at h hx
  split at h
  next =>
      obtain rfl := Except.ok.inj h
      split at hx
      next htake =>
          have hlength := congrArg List.length htake
          rw [List.length_take] at hlength
          omega
      next => cases hx
  next => cases h

/-- A request with two headers of one name, and its bytes. -/
def repeated_request : RequestMeta := ⟨"", "", [], none, [("a", "1"), ("a", "2")]⟩

def repeated_bus : Deployment :=
  small_bus (small_codec repeated_request [0, 0, 0, 0, 2, 1, 97, 1, 49, 1, 97, 1, 50])
    (fixed_codec small_response [0, 0])

theorem handler_sees_request_small : ∃ σ inv, repeated_bus.Reaches (.launching Answers_once) σ ∧
    σ.state.invocations[0]? = some inv ∧ ∃ k call, received 0 σ.state.log = some k ∧
      σ.state.calls[k]? = some call ∧
      Presents call inv.request ∧
      (Contains call inv.request ↔ Unambiguous call.meta_.headers ∧
        Unambiguous call.meta_.path_params) := by
  have hrun : (repeated_bus.system.play (.launching Answers_once)
      ([.launch (.dispatch ⟨"x", "POST", repeated_request, []⟩)] ++ small_steps (.dispatch 0) 15 ++
        [.launch (.receive 0)] ++ small_steps (.receive 0) 11) (Start small_start)).map
      (fun σ => σ.state.invocations.length) = some 1 := by decide +kernel
  obtain ⟨σ, hplay, hlength⟩ := Option.map_eq_some_iff.mp hrun
  have hσ : repeated_bus.Reaches (.launching Answers_once) σ := small_bus_reaches hplay
  obtain ⟨inv, hinv⟩ := List.length_eq_one_iff.mp hlength
  have hzero : σ.state.invocations[0]? = some inv := by rw [hinv]; rfl
  exact ⟨σ, inv, hσ, hzero, (handler_sees_request hσ (by decide) (small_codec_roundTrip _ _)
    (small_codec_truncation _ _)).1 0 inv hzero⟩

/-- **A method that has no byte and a repeated header are lost**: a dispatch of a `TRACE` request
succeeds, and the handler gets a `GET` request with the last of the two headers. -/
theorem handler_sees_another_request : repeated_bus.request_codec.RoundTrip ∧
    ∃ σ, repeated_bus.Reaches (.launching Answers_once) σ ∧
      σ.state.calls.map (fun call => (call.method, call.meta_.headers)) =
        [("TRACE", [("a", "1"), ("a", "2")])] ∧
      σ.state.log.any
        (fun e => match e.action with | .finish (.ok _) => e.thread = .dispatch 0 | _ => false) =
        true ∧
      σ.state.invocations.map (fun inv => (inv.request.method, inv.request.headers "a")) =
        [("GET", some "2")] := by
  have hrun : (repeated_bus.system.play (.launching Answers_once)
      ([.launch (.dispatch ⟨"x", "TRACE", repeated_request, []⟩)] ++ small_steps (.dispatch 0) 15 ++
        [.launch (.receive 0)] ++ small_steps (.receive 0) 11) (Start small_start)).map
      (fun σ => decide (
        σ.state.calls.map (fun call => (call.method, call.meta_.headers)) =
          [("TRACE", [("a", "1"), ("a", "2")])] ∧
        σ.state.log.any
          (fun e => match e.action with | .finish (.ok _) => e.thread = .dispatch 0 | _ => false) =
          true ∧
        σ.state.invocations.map (fun inv => (inv.request.method, inv.request.headers "a")) =
          [("GET", some "2")])) =
      some true := by decide +kernel
  obtain ⟨σ, hplay, hobserved⟩ := Option.map_eq_some_iff.mp hrun
  exact ⟨small_codec_roundTrip _ _, σ, small_bus_reaches hplay, of_decide_eq_true hobserved⟩

end SlotBus
