import SlotBus.Registration
import SlotBus.Foundation.RemoteCall

/-!
# Requests and responses as remote calls

What the callers and the handlers of a bus see of it, and that they cannot tell it from a service
for remote calls that makes, serves, answers and resolves each call at most once.

* `observed`, `Traced` — what can be seen of a run;
* `Servings`, `Replies`, `Receipts` — no request is handed over twice, no invocation answers twice,
  and no receiver is resolved twice, whatever the request ids are;
* `bus_refines_remote_calls` — **every run of a bus shows what some run of such a service shows**;
* `bus_computes` — with handlers that compute a function, a caller gets its value at the request of
  the caller.
-/

namespace SlotBus

open AtomicProgram AtomicProgram.Program RemoteCall

/-! ### What can be seen -/

/-- The request that a handler should be given for a call. -/
def DispatchCall.presented (call : DispatchCall) : Request :=
  Request.build call.req_id (method_to_u8 call.method) call.meta_ call.body

/-- The response that a caller should be given for a reply. -/
def Reply.response (reply : Reply) : Response :=
  ⟨reply.status, reply.body, reply.content_type, reply.headers⟩

/-- What an action shows: a handler invocation begins, a response is published, or a receiver is
resolved. -/
def observed (w : World) : Thread → (a : Action) → Answer a → List (Event Request Response)
  | .receive _, .handle _ i request, n =>
      (owner w.log i).call.toList.map fun k => .serve n k request
  | .respond c, .store _ v, _ =>
      if v = SLOT_DONE then (w.replies[c]?).toList.map fun reply =>
        .reply reply.invocation reply.response else []
  | _, .send tx response, _ => [.deliver tx response]
  | _, _, _ => []

/-- What a launch shows: a call is made. -/
def Launch.shows (w : World) : Launch → List (Event Request Response)
  | .dispatch call => [.ask w.calls.length call.presented]
  | .watcher | .receive _ | .respond _ => []

/-- A run following the discipline shows these events on its way to this configuration. -/
inductive Traced (D : Deployment) (discipline : Discipline bus Thread World Launch) :
    List (Event Request Response) → Configuration bus Thread World → Prop where
  | start {mem : ByteMemory.Memory} {names : String → Option ℕ} {segments : ℕ → Segment} {next : ℕ}
      (hsetup : D.SetUp mem) : Traced D discipline [] (Start (.start mem names segments next))
  | action {es : List (Event Request Response)} {σ : Configuration bus Thread World}
      {t : Thread} {a : Action} {rest : Answer a → Program bus Unit} {c : Choice} {r : Answer a}
      {w' : World} (h : Traced D discipline es σ) (hp : σ.program t = .act a rest)
      (ha : discipline.action t a σ.state)
      (hx : (machine D.target).exec t a c σ.state = some (r, w')) :
      Traced D discipline (es ++ observed σ.state t a r) ⟨w', Function.update σ.program t (rest r)⟩
  | launch {es : List (Event Request Response)} {σ : Configuration bus Thread World}
      {e : Launch} {t : Thread} {p : Program bus Unit} {w' : World} (h : Traced D discipline es σ)
      (hp : σ.program t = .done ()) (he : discipline.launch e σ.state)
      (hx : D.launch e σ.state = some (t, p, w')) :
      Traced D discipline (es ++ e.shows σ.state) ⟨w', Function.update σ.program t p⟩

section Traces

variable {D : Deployment} {discipline : Discipline bus Thread World Launch}
    {σ : Configuration bus Thread World}
  {es : List (Event Request Response)}

theorem step_of_action {t : Thread} {a : Action} {rest : Answer a → Program bus Unit}
    {c : Choice} {r : Answer a} {w' : World} (hp : σ.program t = .act a rest)
    (ha : discipline.action t a σ.state)
    (hx : (machine D.target).exec t a c σ.state = some (r, w')) :
    Step D.system discipline σ ⟨w', Function.update σ.program t (rest r)⟩ := by
  refine ⟨.run t c, fun b k hb => ?_, ?_⟩
  · cases hp.symm.trans hb
    exact ha
  · simp only [System.next, hp, Option.map_eq_some_iff]
    exact ⟨(r, w'), hx, rfl⟩

theorem step_of_launch {e : Launch} {t : Thread} {p : Program bus Unit} {w' : World}
    (hp : σ.program t = .done ()) (he : discipline.launch e σ.state)
    (hx : D.launch e σ.state = some (t, p, w')) :
    Step D.system discipline σ ⟨w', Function.update σ.program t p⟩ := by
  refine ⟨.launch e, he, ?_⟩
  simp only [System.next, Option.bind_eq_some_iff]
  exact ⟨(t, p, w'), hx, by rw [hp]⟩

theorem Traced.reaches (h : Traced D discipline es σ) : D.Reaches discipline σ := by
  induction h with
  | start hsetup => exact ⟨_, _, _, _, hsetup, .refl⟩
  | action _ hp ha hx ih => exact ih.step (step_of_action hp ha hx)
  | launch _ hp he hx ih => exact ih.step (step_of_launch hp he hx)

/-- Every run shows something. -/
theorem Deployment.Reaches.traced (h : D.Reaches discipline σ) :
    ∃ es, Traced D discipline es σ := by
  refine h.induct (P := fun τ => ∃ es, Traced D discipline es τ) ?_ ?_ ?_
  · intro mem names segments next hsetup
    exact ⟨[], .start hsetup⟩
  · intro τ t a rest c r w' _ ih hp ha hx
    obtain ⟨es, hes⟩ := ih
    exact ⟨_, hes.action hp ha hx⟩
  · intro τ e t p w' _ ih hp he hx
    obtain ⟨es, hes⟩ := ih
    exact ⟨_, hes.launch hp he hx⟩

end Traces

section Steps

variable {D : Deployment} {t : Thread} {a : Action} {c : Choice} {w w' : World}
    {r : Answer a} {k n : ℕ}

/-! ### No request is handed over twice -/

/-- What a handler invocation changes: it is numbered, and it has the slot and the request of a
call. -/
theorem Deployment.Legal.handle {wk i : ℕ} {request : Request} {n : ℕ}
    (hl : D.Legal w t (.handle wk i request))
    (hx : (machine D.target).exec t (.handle wk i request) c w = some (n, w')) :
    ∃ l k, t = .receive l ∧ owner w.log i = .reading l k ∧ D.Handed w k request ∧
      n = w.invocations.length ∧
      owner w'.log = Function.update (owner w.log) i (.handling n k) ∧
      (∀ m, received m w'.log = if m = n then some k else received m w.log) ∧
      w'.invocations = w.invocations ++ [⟨wk, i, request⟩] := by
  cases hl with
  | bystander hb => exact hb.elim
  | own _ ho => exact ho.elim
  | @invoke l _ k _ ho hrequest =>
      obtain ⟨u, hu, rfl⟩ := exec_iff.mp hx
      obtain ⟨rfl, rfl⟩ := Prod.mk.inj (Option.some.inj hu)
      refine ⟨l, k, rfl, ho, hrequest, rfl, ?_, fun m => ?_, rfl⟩
      · refine congrArg (Function.update (owner w.log) i) ?_
        rw [ho]
      · show (if m == w.invocations.length then (owner w.log i).call else received m w.log) = _
        rw [ho]
        simp only [beq_iff_eq]
        rfl

/-- The invocations serve different calls, and a slot that has the request of a call that is served
is the one of its invocation. -/
structure Servings (w : World) : Prop where
  once : ∀ m n k, received m w.log = some k → received n w.log = some k → m = n
  begun : ∀ n k, received n w.log = some k → phase w.log (.dispatch k) ≠ .idle
  taken : ∀ n k i, received n w.log = some k → (owner w.log i).call = some k →
    owner w.log i = .handling n k ∨ ∃ c, owner w.log i = .done n k c

theorem Servings.step (hs : Servings w) (hI : D.Invariant w) (hl : D.Legal w t a)
    (hm : D.Move t a w w') (hx : (machine D.target).exec t a c w = some (r, w')) : Servings w' := by
  by_cases ha : ∃ wk i request, a = .handle wk i request
  · obtain ⟨wk, i, request, rfl⟩ := ha
    obtain ⟨l, k, rfl, ho, -, rfl, howner, hreceived, -⟩ := hl.handle hx
    have hcall : (owner w.log i).call = some k := by rw [ho]; rfl
    -- the call was served by nobody before
    have hnew : ∀ m, received m w.log ≠ some k := by
      intro m hk
      rcases hs.taken m k i hk hcall with h | ⟨c, h⟩ <;> rw [ho] at h <;> cases h
    have hbegun : phase w.log (.dispatch k) ≠ .idle := by
      intro hidle
      have hslot := hI.ledger.claimed i k hcall
      change (phase w.log (.dispatch k)).slot = some i at hslot
      rw [hidle] at hslot
      cases hslot
    refine ⟨fun m n j hj hj' => ?_, fun n j hj => ?_, fun n j i' hj hcall' => ?_⟩
    · rw [hreceived] at hj hj'
      by_cases hm : m = w.invocations.length
      · by_cases hn : n = w.invocations.length
        · rw [hm, hn]
        · rw [if_pos hm] at hj
          rw [if_neg hn] at hj'
          obtain rfl := Option.some.inj hj
          exact absurd hj' (hnew n)
      · rw [if_neg hm] at hj
        by_cases hn : n = w.invocations.length
        · rw [if_pos hn] at hj'
          obtain rfl := Option.some.inj hj'
          exact absurd hj (hnew m)
        · rw [if_neg hn] at hj'
          exact hs.once m n j hj hj'
    · apply phase_ne_idle_step hm
      rw [hreceived] at hj
      split at hj
      next =>
          obtain rfl := Option.some.inj hj
          exact hbegun
      next => exact hs.begun n j hj
    · rw [howner] at hcall' ⊢
      by_cases hi : i' = i
      · rw [hi, Function.update_self] at hcall' ⊢
        obtain rfl := Option.some.inj hcall'
        refine .inl ?_
        by_cases hn : n = w.invocations.length
        · rw [hn]
        · rw [hreceived, if_neg hn] at hj
          exact absurd hj (hnew n)
      · rw [Function.update_of_ne hi] at hcall' ⊢
        rw [hreceived] at hj
        split at hj
        next =>
            -- a call is in one slot only
            obtain rfl := Option.some.inj hj
            have h1 := hI.ledger.claimed i k hcall
            have h2 := hI.ledger.claimed i' k hcall'
            exact absurd (Option.some.inj (h2.symm.trans h1)) hi
        next => exact hs.taken n j i' hj hcall'
  · have hreceived : ∀ m, received m w'.log = received m w.log := by
      intro m
      rw [(exec_changes hx).log]
      apply received_of_ne_handle
      intro wk i request heq
      exact ha ⟨wk, i, request, heq⟩
    refine ⟨fun m n j hj hj' => ?_, fun n j hj => ?_, fun n j i hj hcall => ?_⟩
    · rw [hreceived] at hj hj'
      exact hs.once m n j hj hj'
    · rw [hreceived] at hj
      exact phase_ne_idle_step hm (hs.begun n j hj)
    · rw [hreceived] at hj
      rcases hm.owner_cases with heq | ⟨i', o, p, -, -, hturn, heq, -⟩ | ⟨l,
        k, i', -, hread, hnew, -⟩
      · rw [heq] at hcall ⊢
        exact hs.taken n j i hj hcall
      · rw [heq] at hcall ⊢
        by_cases hi : i = i'
        · subst hi
          rw [Function.update_self] at hcall ⊢
          cases hturn with
          | claim ho hidle =>
              obtain rfl := Option.some.inj hcall
              exact absurd hidle (hs.begun n _ hj)
          | publish ho =>
              have ho' : owner w.log i = .writing _ := ho
              rcases hs.taken n j i hj (by rw [ho']; exact hcall) with h | ⟨c, h⟩ <;>
                rw [ho'] at h <;> cases h
          | take ho hidle =>
              have ho' : owner w.log i = .ready _ := ho
              rcases hs.taken n j i hj (by rw [ho']; exact hcall) with h | ⟨c, h⟩ <;>
                rw [ho'] at h <;> cases h
          | @answer m j' c _ ho hc =>
              have ho' : owner w.log i = .handling m j' := ho
              rcases hs.taken n j i hj (by rw [ho']; exact hcall) with h | ⟨c, h⟩ <;>
                rw [ho'] at h <;> cases h
              exact .inr ⟨_, rfl⟩
          | _ => cases hcall
        · rw [Function.update_of_ne hi] at hcall ⊢
          exact hs.taken n j i hj hcall
      · -- an invocation begins with no other action
        rw [hreceived] at hnew
        have hlt := hI.received_lt hnew
        exact absurd hlt (lt_irrefl _)

/-! ### No invocation answers twice -/

/-- Reply `c` has been published. -/
def Published (w : World) (c : ℕ) : Prop :=
  ∃ e ∈ w.log, e.thread = .respond c ∧ ∃ i, e.action = .store i SLOT_DONE

theorem published_cons_iff {b : ℕ} (hlog : w'.log = ⟨t, a, r⟩ :: w.log) :
    Published w' b ↔ Published w b ∨ t = .respond b ∧ ∃ i, a = .store i SLOT_DONE := by
  constructor
  · intro h
    obtain ⟨e, he, hb⟩ := h
    rw [hlog] at he
    cases List.mem_cons.mp he with
    | inl heq =>
        subst heq
        exact .inr hb
    | inr hold => exact .inl ⟨e, hold, hb⟩
  · intro h
    cases h with
    | inl hold =>
        obtain ⟨e, he, hb⟩ := hold
        exact ⟨e, hlog ▸ List.mem_cons_of_mem _ he, hb⟩
    | inr hnew => exact ⟨_, hlog ▸ List.mem_cons_self, hnew⟩

/-- A `send_response` call that has touched its slot has done so for good. -/
theorem not_waiting_step (hm : D.Move t a w w') {u : Thread} (hu : ¬(phase w.log u).Waiting) :
    ¬(phase w'.log u).Waiting := by
  have hset : ∀ {p : Phase}, ¬p.Waiting ∨ (p.Waiting ↔ (phase w.log t).Waiting) →
      phase w'.log = Function.update (phase w.log) t p → ¬(phase w'.log u).Waiting := by
    intro p hp heq
    rw [heq]
    by_cases hut : u = t
    · rw [hut, Function.update_self]
      cases hp with
      | inl hnot => exact hnot
      | inr hiff => rwa [hiff, ← hut]
    · rwa [Function.update_of_ne hut]
  cases hm with
  | still hledger _ => rwa [show phase w'.log = phase w.log from congrArg Ledger.phase hledger]
  | @follow p hp hledger _ => exact hset (.inr hp.waiting_iff) (congrArg Ledger.phase hledger)
  | @turn i o p _ _ hturn hledger _ _ _ =>
      refine hset (.inl ?_) (congrArg Ledger.phase hledger)
      cases hturn <;> simp [Phase.Waiting]
  | @invoke l k i _ _ _ _ hledger _ _ _ =>
      exact hset (.inl (by simp [Phase.Waiting])) (congrArg Ledger.phase hledger)

/-- Publishing a response, as a legal action does it. -/
theorem Deployment.Legal.publish_response {b i : ℕ}
    (hl : D.Legal w (.respond b) (.store i SLOT_DONE)) :
    ∃ n k, owner w.log i = .handling n k ∧ w.ledger.Sole b n := by
  cases hl with
  | bystander hb => exact hb.elim
  | own _ ho => exact ho.elim
  | answer ht _ =>
      cases ht with
      | response ho hsole => exact ⟨_, _, ho, hsole⟩

/-- The responses that are in a slot, or that the watcher has taken from one, have been published,
and a reply that has been published has touched its slot. -/
structure Replies (w : World) : Prop where
  begun : ∀ b, Published w b → ¬(phase w.log (.respond b)).Waiting
  done : ∀ i n k b, owner w.log i = .done n k b → Published w b
  collected : ∀ n k b, collected w.log = some (n, k, b) → Published w b

theorem Replies.step (hs : Replies w) (hI : D.Invariant w) (hl : D.Legal w t a)
    (hm : D.Move t a w w') (hx : (machine D.target).exec t a c w = some (r, w')) : Replies w' := by
  have hlog := (exec_changes hx).log
  have hold : ∀ {b}, Published w b → Published w' b :=
    fun hb => (published_cons_iff hlog).mpr (.inl hb)
  refine ⟨fun b hb => ?_, fun i n k b hb => ?_, fun n k b hb => ?_⟩
  · rcases (published_cons_iff hlog).mp hb with hb | ⟨rfl, i, rfl⟩
    · exact not_waiting_step hm (hs.begun b hb)
    · rw [hlog, phase_cons_self]
      show ¬Phase.Waiting (.published i)
      simp [Phase.Waiting]
  · rcases hm.owner_cases with heq | ⟨j, o, p, hj, -, hturn, heq, -⟩ | ⟨l, k', j, -, -, -, heq⟩
    · exact hold (hs.done i n k b (heq ▸ hb))
    · rw [heq] at hb
      by_cases hi : i = j
      · rw [hi, Function.update_self] at hb
        subst hb
        cases hturn with
        | answer ho hc =>
            -- the turn that leaves a response in a slot is the store that publishes it
            cases hl with
            | bystander hb =>
                rw [hb.silent.2.1] at hj
                cases hj
            | own _ hown =>
                rw [(SlotHalf.own_silent hown).2] at hj
                cases hj
            | answer ht hP => exact (published_cons_iff hlog).mpr (.inr ⟨rfl, _, rfl⟩)
            | give_up ht =>
                have howner := congrFun heq j
                rw [hlog, Function.update_self] at howner
                obtain rfl : _ = j := Option.some.inj hj
                change Function.update (owner w.log) _ _ _ = _ at howner
                have ho' : owner w.log _ = .handling _ _ := ho
                rw [Function.update_self, ho'] at howner
                cases howner
            | _ => cases hj
      · rw [Function.update_of_ne hi] at hb
        exact hold (hs.done i n k b hb)
    · rw [heq] at hb
      by_cases hi : i = j
      · rw [hi, Function.update_self] at hb
        cases hb
      · rw [Function.update_of_ne hi] at hb
        exact hold (hs.done i n k b hb)
  · rcases collected_cases hI hl hx with ⟨heq, -⟩ | ⟨i, n', k', b', -, ho, -, hnew, -⟩
    · exact hold (hs.collected n k b (heq ▸ hb))
    · obtain ⟨rfl, rfl, rfl⟩ : n' = n ∧ k' = k ∧ b' = b := by simpa using hnew.symm.trans hb
      exact hold (hs.done i _ _ _ ho)

end Steps

/-! ### No receiver is resolved twice -/

/-- The watcher resolves the receiver that it has just taken from the pending map, and no other. -/
def receipt : Typestate bus (Option ℕ) where
  allowed
    | some tx, .send tx' _ => tx' = tx
    | some _, _ => False
    | none, .send _ _ => False
    | none, _ => True
  next
    | _, .pending_remove _, found => found
    | _, .send _ _, _ => none
    | q, _, _ => q

theorem receipt_bystander {a : Action} (ha : a.Bystander) :
    receipt.allowed none a ∧ ∀ r, receipt.next none a r = none := by
  cases a <;> first | exact ha.elim | exact ⟨trivial, fun _ => rfl⟩

theorem watch_slot_receipt (D : Deployment) (i : ℕ) :
    receipt.Keeps (fun _ q => q = none) none (D.watch_slot i) := by
  unfold Deployment.watch_slot
  refine ⟨trivial, fun (status : ℕ) => ?_⟩
  show receipt.Keeps _ none (if status ≠ SLOT_DONE then _ else _)
  split
  · rfl
  · refine Typestate.Keeps.bind (p := read_req_id i)
      (.of_confined (p := read_req_id i) ⟨trivial, fun _ => trivial⟩
          (fun _ ha => receipt_bystander ha) fun req_id => ?_)
    refine Typestate.Keeps.bind
      (p := (read_response D.response_codec D.target D.hub_region i D.config).run)
      (.of_confined ((read_response_confined _).mono fun _ ha => ha.bystander)
        (fun _ ha => receipt_bystander ha)
        fun result => ?_)
    refine ⟨trivial, fun (b : Bool) => ?_⟩
    cases b with
    | false => rfl
    | true =>
        refine ⟨trivial, fun _ => ?_⟩
        cases result with
        | error e => rfl
        | ok answer =>
            obtain ⟨status, m, body⟩ := answer
            refine ⟨trivial, fun (found : Option ℕ) => ?_⟩
            cases found with
            | none => rfl
            | some tx => exact ⟨rfl, fun _ => rfl⟩

theorem watcher_pass_receipt (D : Deployment) :
    receipt.Keeps (fun _ q => q = none) none D.watcher_pass := by
  have hscan :
      ∀ slots, receipt.Keeps (fun _ q => q = none) none
      (Deployment.for_each D.watch_slot slots) := by
    intro slots
    induction slots with
    | nil => rfl
    | cons i rest ih =>
        refine Typestate.Keeps.bind ((watch_slot_receipt D i).mono fun _ q hq => ?_)
        rw [hq]
        exact ih
  refine ⟨trivial, fun (b : Bool) => ?_⟩
  cases b with
  | false => rfl
  | true => exact ⟨trivial, fun _ => hscan _⟩

/-- The receiver that the watcher is about to resolve. -/
def in_hand (log : List Entry) : Option ℕ := after receipt none (history .watcher log)

theorem Deployment.Reaches.receipt_keeps {D : Deployment}
    {discipline : Discipline bus Thread World Launch} {σ : Configuration bus Thread World}
    (h : D.Reaches discipline σ) :
    receipt.Keeps (fun _ q => q = none) (in_hand σ.state.log) (σ.program .watcher) := by
  have hlaunch : ∀ e w p w', D.launch e w = some (.watcher, p, w') → ∀ q, q = none →
      receipt.Keeps (fun _ q => q = none) q p := by
    intro e w p w' hl q hq
    subst hq
    rcases Deployment.launch_cases hl with ⟨call, -, ht, -⟩ | ⟨-, -, rfl, -⟩ | ⟨l, -, ht, -⟩ |
      ⟨reply, inv, -, -, ht, -⟩
    · cases ht
    · exact watcher_pass_receipt D
    · cases ht
    · cases ht
  refine h.keeps ?_ hlaunch
  rfl

section Steps

variable {D : Deployment} {t : Thread} {a : Action} {c : Choice} {w w' : World}
    {r : Answer a} {k : ℕ}

/-- A dispatch call that has registered its receiver is over. -/
theorem registered_step (hI : D.Invariant w) (hm : D.Move t a w w') {i : ℕ}
    (h : phase w.log (.dispatch k) = .registered i) :
    phase w'.log (.dispatch k) = .registered i := by
  have hset : ∀ {p : Phase}, (t = .dispatch k → p = .registered i) →
      phase w'.log = Function.update (phase w.log) t p →
      phase w'.log (.dispatch k) = .registered i := by
    intro p hp heq
    rw [heq]
    by_cases ht : t = .dispatch k
    · rw [ht, Function.update_self]
      exact hp ht
    · rw [Function.update_of_ne (Ne.symm ht)]
      exact h
  cases hm with
  | still hledger _ => rwa [show phase w'.log = phase w.log from congrArg Ledger.phase hledger]
  | @follow p hp hledger _ =>
      refine hset (fun ht => ?_) (congrArg Ledger.phase hledger)
      rw [ht, h] at hp
      cases hp
  | @turn j o p _ _ hturn hledger _ _ _ =>
      refine hset (fun ht => ?_) (congrArg Ledger.phase hledger)
      subst ht
      cases hturn with
      | claim ho hidle => exact absurd hidle (by show phase w.log (.dispatch k) ≠ _; rw [h]; nofun)
      | publish ho | withdraw ho =>
          have hholding : phase w.log (.dispatch k) = .holding j := (hI.ledger.writing j k).mp ho
          rw [h] at hholding
          cases hholding
  | @invoke l k' j _ ht _ _ hledger _ _ _ =>
      exact hset (fun ht' => by rw [ht] at ht'; cases ht') (congrArg Ledger.phase hledger)

/-- A receiver is registered once, and from then on it waits in the pending map, is in the hand of
the watcher, or is gone; no receiver is resolved before it has been registered. -/
structure Receipts (w : World) : Prop where
  registered : ∀ k, Inserted w k → ∃ i, phase w.log (.dispatch k) = .registered i
  waiting : ∀ id k, w.pending id = some k → Inserted w k ∧ w.resolved k = none ∧
    in_hand w.log ≠ some k
  found : ∀ k, in_hand w.log = some k → Inserted w k ∧ w.resolved k = none
  resolved : ∀ k response, w.resolved k = some response → Inserted w k

theorem inserted_cons_iff (hlog : w'.log = ⟨t, a, r⟩ :: w.log) :
    Inserted w' k ↔ Inserted w k ∨ t = .dispatch k ∧ ∃ id, a = .pending_insert id k := by
  constructor
  · intro h
    obtain ⟨e, he, hk⟩ := h
    rw [hlog] at he
    cases List.mem_cons.mp he with
    | inl heq =>
        subst heq
        exact .inr hk
    | inr hold => exact .inl ⟨e, hold, hk⟩
  · intro h
    cases h with
    | inl hold =>
        obtain ⟨e, he, hk⟩ := hold
        exact ⟨e, hlog ▸ List.mem_cons_of_mem _ he, hk⟩
    | inr hnew => exact ⟨_, hlog ▸ List.mem_cons_self, hnew⟩

theorem in_hand_watcher (log : List Entry) :
    in_hand (⟨.watcher, a, r⟩ :: log) = receipt.next (in_hand log) a r := by
  rw [in_hand, history_cons_self]
  rfl

/-- Only a look-up and a delivery of the watcher change what it has in its hand. -/
theorem in_hand_cons (h : t ≠ .watcher ∨ (∀ id, a ≠ .pending_remove id) ∧ ∀ tx response,
    a ≠ .send tx response)
    (log : List Entry) : in_hand (⟨t, a, r⟩ :: log) = in_hand log := by
  by_cases ht : t = .watcher
  · subst ht
    obtain ⟨h1, h2⟩ := h.resolve_left (not_not_intro rfl)
    rw [in_hand_watcher]
    cases a with
    | pending_remove id => exact absurd rfl (h1 id)
    | send tx response => exact absurd rfl (h2 tx response)
    | _ => rfl
  · rw [in_hand, history_cons_of_ne ht]
    rfl

theorem legal_send {tx : ℕ} {response : Response} (hl : D.Legal w t (.send tx response)) :
    t = .watcher := by
  cases hl with
  | bystander hb => exact hb.elim
  | own _ ho => exact ho.elim
  | deliver _ _ _ => rfl

/-- Registering a receiver: the call has not done so before. -/
theorem Receipts.insert_step (hs : Receipts w) (hI : D.Invariant w) {id : String} {tx : ℕ}
    (hl : D.Legal w t (.pending_insert id tx)) (hm : D.Move t (.pending_insert id tx) w w')
    {r : Answer (.pending_insert id tx)}
    (hx : (machine D.target).exec t (.pending_insert id tx) c w = some (r, w')) :
    Receipts w' := by
  have hlog := (exec_changes hx).log
  obtain ⟨rfl, -⟩ := legal_register hl
  have hphase : ∃ i, phase w.log (.dispatch tx) = .published i ∨
      phase w.log (.dispatch tx) = .kept i := by
    cases hl with
    | bystander hb => exact hb.elim
    | own _ ho => exact ho.elim
    | register _ h => exact ⟨_, h⟩
  have hnew : ¬Inserted w tx := by
    intro hins
    obtain ⟨i, hreg⟩ := hs.registered tx hins
    obtain ⟨j, h | h⟩ := hphase <;> rw [hreg] at h <;> cases h
  have hhand : in_hand w'.log = in_hand w.log := by
    rw [hlog]
    exact in_hand_cons (.inl (by nofun)) _
  have hresolved :
      w'.resolved = w.resolved ∧ w'.pending = Function.update w.pending id (some tx) := by
    obtain ⟨u, hu, rfl⟩ := exec_iff.mp hx
    obtain ⟨-, rfl⟩ := Prod.mk.inj (Option.some.inj hu)
    exact ⟨rfl, rfl⟩
  obtain ⟨hresolved, hpending⟩ := hresolved
  have hkeep : ∀ {j}, Inserted w j → Inserted w' j := fun hj => inserted_step hj hx
  refine ⟨fun k hk => ?_, fun id' k hk => ?_, fun k hk => ?_, fun k response hk => ?_⟩
  · rcases (inserted_cons_iff hlog).mp hk with hold | ⟨ht, -⟩
    · obtain ⟨i, hi⟩ := hs.registered k hold
      exact ⟨i, registered_step hI hm hi⟩
    · obtain rfl := Thread.dispatch.inj ht
      obtain ⟨j, h⟩ := hphase
      refine ⟨j, ?_⟩
      rw [hlog, phase_cons_self]
      cases h with
      | inl h => rw [h]; rfl
      | inr h => rw [h]; rfl
  · rw [hpending] at hk
    rw [hresolved, hhand]
    by_cases hid : id' = id
    · rw [hid, Function.update_self] at hk
      obtain rfl := Option.some.inj hk
      refine ⟨(inserted_cons_iff hlog).mpr (.inr ⟨rfl, id, rfl⟩), ?_, fun hhand =>
        hnew (hs.found _ hhand).1⟩
      cases hr : w.resolved tx with
      | none => rfl
      | some response => exact absurd (hs.resolved tx response hr) hnew
    · rw [Function.update_of_ne hid] at hk
      obtain ⟨h1, h2, h3⟩ := hs.waiting id' k hk
      exact ⟨hkeep h1, h2, h3⟩
  · rw [hhand] at hk
    rw [hresolved]
    exact ⟨hkeep (hs.found k hk).1, (hs.found k hk).2⟩
  · rw [hresolved] at hk
    exact hkeep (hs.resolved k response hk)

/-- The watcher takes a receiver from the map. -/
theorem Receipts.remove_step (hs : Receipts w) (hI : D.Invariant w) {id : String}
    (hl : D.Legal w t (.pending_remove id)) (hm : D.Move t (.pending_remove id) w w')
    {r : Answer (.pending_remove id)}
    (hx : (machine D.target).exec t (.pending_remove id) c w = some (r, w')) : Receipts w' := by
  have hlog := (exec_changes hx).log
  obtain ⟨rfl, -⟩ := legal_look_up hI hl
  have hafter : r = w.pending id ∧ w'.resolved = w.resolved ∧
      w'.pending = Function.update w.pending id none := by
    obtain ⟨u, hu, rfl⟩ := exec_iff.mp hx
    obtain ⟨rfl, rfl⟩ := Prod.mk.inj (Option.some.inj hu)
    exact ⟨rfl, rfl, rfl⟩
  obtain ⟨hr, hresolved, hpending⟩ := hafter
  have hhand : in_hand w'.log = w.pending id := by
    rw [hlog, in_hand_watcher]
    exact hr
  have hkeep : ∀ {j}, Inserted w j → Inserted w' j := fun hj => inserted_step hj hx
  refine ⟨fun k hk => ?_, fun id' k hk => ?_, fun k hk => ?_, fun k response hk => ?_⟩
  · rcases (inserted_cons_iff hlog).mp hk with hold | ⟨ht, -⟩
    · obtain ⟨i, hi⟩ := hs.registered k hold
      exact ⟨i, registered_step hI hm hi⟩
    · cases ht
  · rw [hpending] at hk
    rw [hresolved, hhand]
    by_cases hid : id' = id
    · rw [hid, Function.update_self] at hk
      cases hk
    · rw [Function.update_of_ne hid] at hk
      obtain ⟨h1, h2, -⟩ := hs.waiting id' k hk
      refine ⟨hkeep h1, h2, fun hboth => ?_⟩
      -- a receiver waits under the id of its call only
      obtain ⟨call, hcall, hcid⟩ := hI.pending id' k hk
      obtain ⟨call', hcall', hcid'⟩ := hI.pending id k hboth
      obtain rfl := Option.some.inj (hcall.symm.trans hcall')
      exact hid (hcid.symm.trans hcid')
  · rw [hhand] at hk
    rw [hresolved]
    obtain ⟨h1, h2, -⟩ := hs.waiting id k hk
    exact ⟨hkeep h1, h2⟩
  · rw [hresolved] at hk
    exact hkeep (hs.resolved k response hk)

/-- The watcher resolves the receiver in its hand. -/
theorem Receipts.send_step (hs : Receipts w) (hI : D.Invariant w) {tx : ℕ} {response : Response}
    (hl : D.Legal w t (.send tx response)) (hm : D.Move t (.send tx response) w w')
    (hhand : in_hand w.log = some tx) {r : Answer (.send tx response)}
    (hx : (machine D.target).exec t (.send tx response) c w = some (r, w')) : Receipts w' := by
  have hlog := (exec_changes hx).log
  obtain rfl := legal_send hl
  have hafter :
      w'.pending = w.pending ∧ w'.resolved = Function.update w.resolved tx (some response) := by
    obtain ⟨u, hu, rfl⟩ := exec_iff.mp hx
    obtain ⟨-, rfl⟩ := Prod.mk.inj (Option.some.inj hu)
    exact ⟨rfl, rfl⟩
  obtain ⟨hpending, hresolved⟩ := hafter
  have hempty : in_hand w'.log = none := by
    rw [hlog, in_hand_watcher]
    rfl
  have hkeep : ∀ {j}, Inserted w j → Inserted w' j := fun hj => inserted_step hj hx
  refine ⟨fun k hk => ?_, fun id' k hk => ?_, fun k hk => ?_, fun k response' hk => ?_⟩
  · rcases (inserted_cons_iff hlog).mp hk with hold | ⟨ht, -⟩
    · obtain ⟨i, hi⟩ := hs.registered k hold
      exact ⟨i, registered_step hI hm hi⟩
    · cases ht
  · rw [hpending] at hk
    obtain ⟨h1, h2, h3⟩ := hs.waiting id' k hk
    rw [hresolved, hempty]
    have hne : k ≠ tx := by
      intro heq
      rw [heq] at h3
      exact h3 hhand
    rw [Function.update_of_ne hne]
    exact ⟨hkeep h1, h2, nofun⟩
  · rw [hempty] at hk
    cases hk
  · rw [hresolved] at hk
    by_cases htx : k = tx
    · rw [htx]
      exact hkeep (hs.found tx hhand).1
    · rw [Function.update_of_ne htx] at hk
      exact hkeep (hs.resolved k response' hk)

theorem Receipts.step (hs : Receipts w) (hI : D.Invariant w) (hl : D.Legal w t a)
    (hm : D.Move t a w w') (hx : (machine D.target).exec t a c w = some (r, w'))
    (hhand : ∀ tx response, a = .send tx response → in_hand w.log = some tx) : Receipts w' := by
  by_cases hspecial : (∃ id tx, a = .pending_insert id tx) ∨ (∃ id, a = .pending_remove id) ∨
      ∃ tx response, a = .send tx response
  · rcases hspecial with ⟨id, tx, rfl⟩ | ⟨id, rfl⟩ | ⟨tx, response, rfl⟩
    · exact hs.insert_step hI hl hm hx
    · exact hs.remove_step hI hl hm hx
    · exact hs.send_step hI hl hm (hhand tx response rfl) hx
  · push Not at hspecial
    obtain ⟨hinsert, hremove, hsend⟩ := hspecial
    have hch := exec_changes hx
    have hpending : ∀ id, w'.pending id = w.pending id := by
      intro id
      rcases hch.pending id with heq | ⟨ha, -⟩ | ⟨tx, ha, -⟩
      · exact heq
      · exact absurd ha (hremove id)
      · exact absurd ha (hinsert id tx)
    have hresolved : ∀ tx, w'.resolved tx = w.resolved tx := by
      intro tx
      rcases hch.resolved tx with heq | ⟨response, ha, -⟩
      · exact heq
      · exact absurd ha (hsend tx response)
    have hhand : in_hand w'.log = in_hand w.log := by
      rw [hch.log]
      exact in_hand_cons (.inr ⟨hremove, hsend⟩) _
    have hkeep : ∀ {j}, Inserted w j → Inserted w' j := fun hj => inserted_step hj hx
    refine ⟨fun k hk => ?_, fun id k hk => ?_, fun k hk => ?_, fun k response hk => ?_⟩
    · rcases (inserted_cons_iff hch.log).mp hk with hold | ⟨-, id, ha⟩
      · obtain ⟨i, hi⟩ := hs.registered k hold
        exact ⟨i, registered_step hI hm hi⟩
      · exact absurd ha (hinsert id k)
    · rw [hpending] at hk
      rw [hresolved, hhand]
      obtain ⟨h1, h2, h3⟩ := hs.waiting id k hk
      exact ⟨hkeep h1, h2, h3⟩
    · rw [hhand] at hk
      rw [hresolved]
      exact ⟨hkeep (hs.found k hk).1, (hs.found k hk).2⟩
    · rw [hresolved] at hk
      exact hkeep (hs.resolved k response hk)

end Steps

/-! ### The invariants of a run -/

section Runs

variable {D : Deployment} {discipline : Discipline bus Thread World Launch}
    {σ : Configuration bus Thread World}

theorem Deployment.Reaches.servings (h : D.Reaches discipline σ)
    (hadmits : ∀ e w, discipline.launch e w → Deployment.Admits w e) : Servings σ.state := by
  refine h.induct (P := fun τ => Servings τ.state) ?_ ?_ ?_
  · intro mem names segments next _
    exact ⟨nofun, nofun, nofun⟩
  · intro τ t a rest c r w' hτ ih hp _ hx
    have hσ := hτ.wellBehaved hadmits
    have hl : D.Legal τ.state t a := (hσ.legal hp).2
    exact ih.step hσ.invariant hl (hl.move hτ.sound hσ.invariant hx) hx
  · intro τ e t p w' _ ih _ _ hx
    obtain ⟨calls, replies, rfl⟩ := Deployment.launch_eq hx
    exact ⟨ih.once, ih.begun, ih.taken⟩

theorem Deployment.Reaches.replies_published (h : D.Reaches discipline σ)
    (hadmits : ∀ e w, discipline.launch e w → Deployment.Admits w e) : Replies σ.state := by
  refine h.induct (P := fun τ => Replies τ.state) ?_ ?_ ?_
  · intro mem names segments next _
    refine ⟨fun b hb => ?_, nofun, nofun⟩
    obtain ⟨e, he, -⟩ := hb
    cases he
  · intro τ t a rest c r w' hτ ih hp _ hx
    have hσ := hτ.wellBehaved hadmits
    have hl : D.Legal τ.state t a := (hσ.legal hp).2
    exact ih.step hσ.invariant hl (hl.move hτ.sound hσ.invariant hx) hx
  · intro τ e t p w' _ ih _ _ hx
    obtain ⟨calls, replies, rfl⟩ := Deployment.launch_eq hx
    exact ⟨ih.begun, ih.done, ih.collected⟩

/-- What the watcher resolves is in its hand. -/
theorem Deployment.Reaches.in_hand_of_send (h : D.Reaches discipline σ)
    {tx : ℕ} {response : Response} {rest : Unit → Program bus Unit}
    (hp : σ.program .watcher = .act (.send tx response) rest) :
    in_hand σ.state.log = some tx := by
  have hkeeps := h.receipt_keeps
  rw [hp] at hkeeps
  have hallowed : receipt.allowed (in_hand σ.state.log) (.send tx response) := hkeeps.1
  cases hq : in_hand σ.state.log with
  | none =>
      rw [hq] at hallowed
      exact hallowed.elim
  | some tx' =>
      rw [hq] at hallowed
      exact congrArg some (Eq.symm hallowed)

theorem Deployment.Reaches.receipts (h : D.Reaches discipline σ)
    (hadmits : ∀ e w, discipline.launch e w → Deployment.Admits w e) : Receipts σ.state := by
  refine h.induct (P := fun τ => Receipts τ.state) ?_ ?_ ?_
  · intro mem names segments next _
    refine ⟨fun k hk => ?_, nofun, nofun, nofun⟩
    obtain ⟨e, he, -⟩ := hk
    cases he
  · intro τ t a rest c r w' hτ ih hp _ hx
    have hσ := hτ.wellBehaved hadmits
    have hl : D.Legal τ.state t a := (hσ.legal hp).2
    refine ih.step hσ.invariant hl (hl.move hτ.sound hσ.invariant hx) hx fun tx response ha => ?_
    subst ha
    obtain rfl := legal_send hl
    exact hτ.in_hand_of_send hp
  · intro τ e t p w' _ ih _ _ hx
    obtain ⟨calls, replies, rfl⟩ := Deployment.launch_eq hx
    exact ⟨ih.registered, ih.waiting, ih.found, ih.resolved⟩

end Runs

/-! ### The bus as a service -/

/-- The service has the calls of the bus, its invocations serve the calls that the handlers were
given, and its answers and results are the published replies and the responses of the receivers. -/
structure Simulates (w : World) (s : Service Request Response) : Prop where
  asked : ∀ k : ℕ, s.asked k = (w.calls[k]?).map DispatchCall.presented
  serves : ∀ n, s.serves n = received n w.log
  answer : ∀ (b : ℕ) reply, w.replies[b]? = some reply → Published w b →
    s.answer reply.invocation = some reply.response
  replied : ∀ n, s.answer n ≠ none → ∃ (b : ℕ) (reply : Reply),
    w.replies[b]? = some reply ∧ Published w b ∧
    reply.invocation = n
  result : ∀ k, s.result k = w.resolved k

section Simulation

variable {D : Deployment} {t : Thread} {a : Action} {c : Choice} {w w' : World} {r : Answer a}
  {s : Service Request Response}

/-- An action that shows nothing. -/
theorem observed_eq_nil (hhandle : ∀ wk i request, a ≠ .handle wk i request)
    (hstore : ∀ b i, t = .respond b → a ≠ .store i SLOT_DONE)
    (hsend : ∀ tx response, a ≠ .send tx response) :
    observed w t a r = [] := by
  cases a with
  | handle wk i request => exact absurd rfl (hhandle wk i request)
  | send tx response => exact absurd rfl (hsend tx response)
  | store i v =>
      cases t with
      | respond b => exact if_neg fun hv => hstore b i rfl (by rw [hv])
      | _ => rfl
  | _ => cases t <;> rfl

theorem received_step (hx : (machine D.target).exec t a c w = some (r, w'))
    (ha : ∀ wk i request, a ≠ .handle wk i request) (n : ℕ) :
    received n w'.log = received n w.log := by
  rw [(exec_changes hx).log]
  exact received_of_ne_handle ha n

/-- Only a handler invocation shows that a call is served. -/
theorem observed_serves (hhandle : ∀ wk i request, a ≠ .handle wk i request)
    {n k : ℕ} {q : Request} :
    .serve n k q ∉ observed w t a r := by
  intro h
  cases a with
  | handle wk i request => exact hhandle wk i request rfl
  | send tx response => cases t <;> cases List.mem_singleton.mp h
  | store i v =>
      cases t with
      | respond b =>
          change _ ∈ if v = SLOT_DONE then _ else _ at h
          split at h
          next =>
              obtain ⟨reply, -, heq⟩ := List.mem_map.mp h
              cases heq
          next => cases h
      | _ => cases h
  | _ => cases t <;> cases h

/-- A response that is published is the one of a reply. -/
theorem observed_reply {n : ℕ} {x : Response} (h : .reply n x ∈ observed w t a r) :
    ∃ reply ∈ w.replies, reply.invocation = n ∧ reply.response = x := by
  cases a with
  | handle wk i request =>
      cases t with
      | receive l =>
          obtain ⟨k, -, heq⟩ := List.mem_map.mp h
          cases heq
      | _ => cases h
  | send tx response => cases t <;> cases List.mem_singleton.mp h
  | store i v =>
      cases t with
      | respond b =>
          change _ ∈ if v = SLOT_DONE then _ else _ at h
          split at h
          next =>
              obtain ⟨reply, hreply, heq⟩ := List.mem_map.mp h
              obtain ⟨rfl, rfl⟩ := Event.reply.inj heq
              exact ⟨reply, List.mem_of_getElem? (Option.mem_toList.mp hreply), rfl, rfl⟩
          next => cases h
      | _ => cases h
  | _ => cases t <;> cases h

theorem Simulates.silent (hs : Simulates w s) (hx : (machine D.target).exec t a c w = some (r, w'))
    (hhandle : ∀ wk i request, a ≠ .handle wk i request)
    (hstore : ∀ b i, t = .respond b → a ≠ .store i SLOT_DONE)
    (hsend : ∀ tx response, a ≠ .send tx response) :
    Simulates w' s := by
  have hch := exec_changes hx
  have hpublished : ∀ b, Published w' b ↔ Published w b := by
    intro b
    rw [published_cons_iff hch.log]
    refine ⟨fun h => ?_, .inl⟩
    rcases h with h | ⟨ht, i, ha⟩
    · exact h
    · exact absurd ha (hstore b i ht)
  refine ⟨fun k => ?_, fun n => ?_, fun b reply hb hp => ?_, fun n hn => ?_, fun k => ?_⟩
  · rw [hch.calls]
    exact hs.asked k
  · rw [received_step hx hhandle]
    exact hs.serves n
  · rw [hch.replies] at hb
    exact hs.answer b reply hb ((hpublished b).mp hp)
  · obtain ⟨b, reply, hb, hp, heq⟩ := hs.replied n hn
    exact ⟨b, reply, hch.replies ▸ hb, (hpublished b).mpr hp, heq⟩
  · rw [hs.result k]
    rcases hch.resolved k with heq | ⟨response, ha, -⟩
    · exact heq.symm
    · exact absurd ha (hsend k response)

/-- **A handler invocation serves a call that no other serves.** -/
theorem Simulates.serve (hs : Simulates w s) (hI : D.Invariant w)
    (hservings : Servings w) {wk i n : ℕ} {request : Request}
    (hl : D.Legal w t (.handle wk i request)) (hpresented : ∀ k, D.Handed w k request → ∃ call,
      w.calls[k]? = some call ∧ request = call.presented)
    (hx : (machine D.target).exec t (.handle wk i request) c w = some (n, w')) :
    ∃ e s', observed w t (.handle wk i request) n = [e] ∧ RemoteCall.Step s e s' ∧
      Simulates w' s' := by
  have hch := exec_changes hx
  obtain ⟨l, k, rfl, ho, hhanded, hn, howner, hreceived, -⟩ := hl.handle hx
  obtain ⟨call, hcall, hrequest⟩ := hpresented k hhanded
  refine ⟨.serve n k request, { s with serves := Function.update s.serves n (some k) }, ?_, ?_, ?_⟩
  · show (owner w.log i).call.toList.map _ = _
    rw [ho]
    rfl
  · refine .serve ?_ ?_ fun m hm => ?_
    · rw [hs.asked, hcall, hrequest]
      rfl
    · rw [hs.serves]
      cases hr : received n w.log with
      | none => rfl
      | some j =>
          have hlt := hI.received_lt hr
          rw [hn] at hlt
          exact absurd hlt (lt_irrefl _)
    · rw [hs.serves] at hm
      -- the slot that the loop reads holds the request of a call that is not served
      rcases hservings.taken m k i hm (by rw [ho]; rfl) with h | ⟨b, h⟩ <;> rw [ho] at h <;> cases h
  · have hpublished : ∀ b, Published w' b ↔ Published w b := by
      intro b
      rw [published_cons_iff hch.log]
      refine ⟨fun h => ?_, .inl⟩
      rcases h with h | ⟨ht, -⟩
      · exact h
      · cases ht
    refine ⟨fun j => ?_, fun m => ?_, fun b reply hb hp => ?_, fun m hm => ?_, fun j => ?_⟩
    · rw [hch.calls]
      exact hs.asked j
    · rw [hreceived]
      by_cases hm : m = n
      · rw [hm, if_pos rfl]
        exact Function.update_self ..
      · rw [if_neg hm]
        show Function.update s.serves n (some k) m = _
        rw [Function.update_of_ne hm]
        exact hs.serves m
    · rw [hch.replies] at hb
      exact hs.answer b reply hb ((hpublished b).mp hp)
    · obtain ⟨b, reply, hb, hp, heq⟩ := hs.replied m hm
      exact ⟨b, reply, hch.replies ▸ hb, (hpublished b).mpr hp, heq⟩
    · rw [show w'.resolved j = w.resolved j from (hch.resolved j).resolve_right nofun]
      exact hs.result j

/-- **A response is published for an invocation that has not answered.** -/
theorem Simulates.reply (hs : Simulates w s) (hI : D.Invariant w) (hreplies : Replies w)
    {b i : ℕ} {x : Unit} (hl : D.Legal w (.respond b) (.store i SLOT_DONE))
    (hx : (machine D.target).exec (.respond b) (.store i SLOT_DONE) c w = some (x, w')) :
    ∃ e s', observed w (.respond b) (.store i SLOT_DONE) x = [e] ∧ RemoteCall.Step s e s' ∧
      Simulates w' s' := by
  have hch := exec_changes hx
  obtain ⟨n, k, ho, hsole⟩ := hl.publish_response
  obtain ⟨reply, hreply, hinv⟩ : ∃ reply, w.replies[b]? = some reply ∧ reply.invocation = n := by
    obtain ⟨reply, hreply, heq⟩ := Option.map_eq_some_iff.mp hsole.invocation
    exact ⟨reply, hreply, heq⟩
  refine ⟨.reply n reply.response,
    { s with answer := Function.update s.answer n (some reply.response) }, ?_, ?_, ?_⟩
  · show (if SLOT_DONE = SLOT_DONE then (w.replies[b]?).toList.map _ else []) = _
    rw [if_pos rfl, hreply, ← hinv]
    rfl
  · refine .reply (k := k) ?_ ?_
    · rw [hs.serves]
      exact hI.handed i n k (.inl ho)
    · by_contra hne
      obtain ⟨d, other, hd, hpublished, heq⟩ := hs.replied n hne
      have hnot := hreplies.begun d hpublished
      by_cases hdb : d = b
      · exact hnot (.inl (hdb ▸ hsole.idle))
      · refine hnot (.inr (hsole.others d hdb ?_))
        show w.replies[d]?.map Reply.invocation = some n
        rw [hd, ← heq]
        rfl
  · have hpublished : ∀ d, Published w' d ↔ Published w d ∨ b = d := by
      intro d
      rw [published_cons_iff hch.log]
      constructor
      · intro h
        rcases h with h | ⟨ht, -⟩
        · exact .inl h
        · exact .inr (Thread.respond.inj ht)
      · intro h
        rcases h with h | rfl
        · exact .inl h
        · exact .inr ⟨rfl, i, rfl⟩
    refine ⟨fun j => ?_, fun m => ?_, fun d other hd hp => ?_, fun m hm => ?_, fun j => ?_⟩
    · rw [hch.calls]
      exact hs.asked j
    · rw [received_step hx fun wk j request ha => by cases ha]
      exact hs.serves m
    · rw [hch.replies] at hd
      show Function.update s.answer n (some reply.response) other.invocation = _
      by_cases hdb : d = b
      · subst hdb
        obtain rfl := Option.some.inj (hreply.symm.trans hd)
        rw [hinv, Function.update_self]
      · have hp' := ((hpublished d).mp hp).resolve_right (Ne.symm hdb)
        have hne : other.invocation ≠ n := by
          intro heq
          refine hreplies.begun d hp' (.inr (hsole.others d hdb ?_))
          show w.replies[d]?.map Reply.invocation = some n
          rw [hd, ← heq]
          rfl
        rw [Function.update_of_ne hne]
        exact hs.answer d other hd hp'
    · by_cases hmn : m = n
      · exact ⟨b, reply, hch.replies ▸ hreply, (hpublished b).mpr (.inr rfl), hmn ▸ hinv⟩
      · have hm' : s.answer m ≠ none := by
          intro hnone
          apply hm
          show Function.update s.answer n (some reply.response) m = none
          rw [Function.update_of_ne hmn]
          exact hnone
        obtain ⟨d, other, hd, hp, heq⟩ := hs.replied m hm'
        exact ⟨d, other, hch.replies ▸ hd, (hpublished d).mpr (.inl hp), heq⟩
    · rw [show w'.resolved j = w.resolved j from (hch.resolved j).resolve_right nofun]
      exact hs.result j

/-- **A receiver that has not been resolved gets the reply of the invocation that serves its
call.** -/
theorem Simulates.deliver (hs : Simulates w s) (hreplies : Replies w) (hreceipts : Receipts w)
    (hids : w.ProperIds) {tx : ℕ} {response : Response} {x : Unit}
    (hl : D.Legal w t (.send tx response)) (hhand : in_hand w.log = some tx)
    (hanswers : ∀ b, D.Answers w b response → ∃ reply, w.replies[b]? = some reply ∧
      response = reply.response)
    (hx : (machine D.target).exec t (.send tx response) c w = some (x, w')) :
    ∃ e s', observed w t (.send tx response) x = [e] ∧ RemoteCall.Step s e s' ∧
      Simulates w' s' := by
  have hch := exec_changes hx
  have hresolved : w'.resolved = Function.update w.resolved tx (some response) := by
    obtain ⟨u, hu, rfl⟩ := exec_iff.mp hx
    obtain ⟨-, rfl⟩ := Prod.mk.inj (Option.some.inj hu)
    rfl
  cases hl with
  | bystander hb => exact hb.elim
  | own _ ho => exact ho.elim
  | @deliver k b _ _ hcollected htx hresponse =>
      obtain rfl := htx hids
      obtain ⟨n, reply, htaken, hreply, hinv, hreceived⟩ := hcollected
      obtain ⟨other, hother, rfl⟩ := hanswers b hresponse
      obtain rfl := Option.some.inj (hreply.symm.trans hother)
      have hpublished := hreplies.collected n tx b htaken
      refine ⟨.deliver tx reply.response,
        { s with result := Function.update s.result tx (some reply.response) }, rfl,
        ?_, ?_⟩
      · refine .deliver (n := n) ?_ ?_ ?_
        · rw [hs.serves]
          exact hreceived
        · rw [← hinv]
          exact hs.answer b reply hreply hpublished
        · rw [hs.result]
          exact (hreceipts.found tx hhand).2
      · have hsame : ∀ d, Published w' d ↔ Published w d := by
          intro d
          rw [published_cons_iff hch.log]
          refine ⟨fun h => ?_, .inl⟩
          rcases h with h | ⟨ht, -⟩
          · exact h
          · cases ht
        refine ⟨fun j => ?_, fun m => ?_, fun d other hd hp => ?_, fun m hm => ?_, fun j => ?_⟩
        · rw [hch.calls]
          exact hs.asked j
        · rw [received_step hx fun wk j request ha => by cases ha]
          exact hs.serves m
        · rw [hch.replies] at hd
          exact hs.answer d other hd ((hsame d).mp hp)
        · obtain ⟨d, other, hd, hp, heq⟩ := hs.replied m hm
          exact ⟨d, other, hch.replies ▸ hd, (hsame d).mpr hp, heq⟩
        · rw [hresolved]
          show Function.update s.result tx (some reply.response) j = _
          by_cases hj : j = tx
          · rw [hj, Function.update_self, Function.update_self]
          · rw [Function.update_of_ne hj, Function.update_of_ne hj]
            exact hs.result j

/-- A call is made. -/
theorem Simulates.ask (hs : Simulates w s) (call : DispatchCall) :
    ∃ s', RemoteCall.Step s (.ask w.calls.length call.presented) s' ∧
      Simulates { w with calls := w.calls ++ [call] } s' := by
  refine ⟨{ s with asked := Function.update s.asked w.calls.length (some call.presented) },
    .ask ?_, ?_⟩
  · rw [hs.asked, List.getElem?_eq_none le_rfl]
    rfl
  · refine ⟨fun k => ?_, hs.serves, hs.answer, hs.replied, hs.result⟩
    rw [congrFun (getElem?_append_singleton w.calls call DispatchCall.presented) k]
    show Function.update s.asked _ _ k = _
    by_cases hk : k = w.calls.length
    · rw [hk, Function.update_self, Function.update_self]
    · rw [Function.update_of_ne hk, Function.update_of_ne hk]
      exact hs.asked k

/-- A `send_response` call begins. -/
theorem Simulates.respond (hs : Simulates w s) (hI : D.Invariant w) (reply : Reply) :
    Simulates { w with replies := w.replies ++ [reply] } s := by
  refine ⟨hs.asked, hs.serves, fun b other hb hp => ?_, fun n hn => ?_, hs.result⟩
  · obtain ⟨e, he, ht, -⟩ := id hp
    have hlt : b < w.replies.length := by
      have hknown := hI.known e he
      rwa [ht] at hknown
    rw [List.getElem?_append_left hlt] at hb
    exact hs.answer b other hb hp
  · obtain ⟨b, other, hb, hp, heq⟩ := hs.replied n hn
    refine ⟨b, other, ?_, hp, heq⟩
    rw [List.getElem?_append_left (List.getElem?_eq_some_iff.mp hb).1]
    exact hb

end Simulation

section Refinement

variable {D : Deployment} {discipline : Discipline bus Thread World Launch}
    {σ : Configuration bus Thread World}
  {es : List (Event Request Response)}

/-- Where the lengths fit, the request of a handler is the one that its call presents. -/
theorem handed_presented {w : World} (hprecise : D.Precise)
    (hcalls : ∀ call ∈ w.calls, D.CallFits call) (hids : w.ProperIds)
    (hcodec : D.request_codec.RoundTrip) {k : ℕ} {request : Request} (h : D.Handed w k request) :
    ∃ call, w.calls[k]? = some call ∧ request = call.presented := by
  obtain ⟨call, hcall, hcarries⟩ := h
  obtain ⟨bytes, m, hbytes, hm, hbuild⟩ :=
    hcarries hprecise (hcalls call (List.mem_of_getElem? hcall)) (hids.fits k call hcall)
  obtain rfl := Except.ok.inj (hm.symm.trans (hcodec _ _ hbytes))
  exact ⟨call, hcall, hbuild⟩

theorem answers_response {w : World} (hprecise : D.Precise)
    (hreplies : ∀ reply ∈ w.replies, D.ReplyFits reply) (hcodec : D.response_codec.RoundTrip)
    {b : ℕ} {response : Response} (h : D.Answers w b response) :
    ∃ reply, w.replies[b]? = some reply ∧ response = reply.response := by
  obtain ⟨reply, hreply, hconveys⟩ := h
  obtain ⟨bytes, m, hbytes, hm, hresponse⟩ :=
    hconveys hprecise (hreplies reply (List.mem_of_getElem? hreply))
  obtain rfl := Except.ok.inj (hm.symm.trans (hcodec _ _ hbytes))
  exact ⟨reply, hreply, hresponse⟩

/-- What the bus is given: proper use, a heap of less than 4 GiB, and serializers that keep their
promise. -/
structure Deployment.Dependable (D : Deployment) (discipline : Discipline bus Thread World Launch) :
    Prop where
  proper : ∀ e w, discipline.launch e w → D.Proper_use e w
  heap : D.hub_region.heap_size < 2 ^ 32
  slots : D.target = .macos → D.num_slots ≤ 256
  request_codec : D.request_codec.RoundTrip
  response_codec : D.response_codec.RoundTrip

/-- **One action is at most one step of the service.** -/
theorem Simulates.action {s : Service Request Response} (hdep : D.Dependable discipline)
    (hσ : D.Reaches discipline σ) (hs : Simulates σ.state s) {t : Thread} {a : Action}
    {rest : Answer a → Program bus Unit} (hp : σ.program t = .act a rest) {c : Choice}
    {r : Answer a} {w' : World} (hx : (machine D.target).exec t a c σ.state = some (r, w')) :
    (observed σ.state t a r = [] ∧ Simulates w' s) ∨
      ∃ e s', observed σ.state t a r = [e] ∧ RemoteCall.Step s e s' ∧ Simulates w' s' := by
  have hadmits : ∀ e w, discipline.launch e w → Deployment.Admits w e :=
    fun e w he => (hdep.proper e w he).1.admits
  have hwell := hσ.wellBehaved hadmits
  have hI := hwell.invariant
  have hl : D.Legal σ.state t a := (hwell.legal hp).2
  have hids := hσ.properIds fun e w he => (hdep.proper e w he).2.1
  obtain ⟨hcalls, hreplies⟩ := hσ.lengths fun e w he => (hdep.proper e w he).2.2
  have hprecise : D.Precise := ⟨hσ.faithful hdep.heap, hdep.slots⟩
  by_cases hhandle : ∃ wk i request, a = .handle wk i request
  · obtain ⟨wk, i, request, rfl⟩ := hhandle
    exact .inr (hs.serve hI (hσ.servings hadmits) hl
      (fun k hk => handed_presented hprecise hcalls hids hdep.request_codec hk) hx)
  · by_cases hstore : ∃ b i, t = .respond b ∧ a = .store i SLOT_DONE
    · obtain ⟨b, i, rfl, rfl⟩ := hstore
      exact .inr (hs.reply hI (hσ.replies_published hadmits) hl hx)
    · by_cases hsend : ∃ tx response, a = .send tx response
      · obtain ⟨tx, response, rfl⟩ := hsend
        obtain rfl := legal_send hl
        exact .inr (hs.deliver (hσ.replies_published hadmits) (hσ.receipts hadmits) hids hl
          (hσ.in_hand_of_send hp)
          (fun b hb => answers_response hprecise hreplies hdep.response_codec hb) hx)
      · push Not at hhandle hstore hsend
        exact .inl ⟨observed_eq_nil hhandle hstore hsend, hs.silent hx hhandle hstore hsend⟩

/-- **One launch is at most one step of the service.** -/
theorem Simulates.launch {s : Service Request Response} (hdep : D.Dependable discipline)
    (hσ : D.Reaches discipline σ) (hs : Simulates σ.state s) {e : Launch} {t : Thread}
    {p : Program bus Unit} {w' : World} (hx : D.launch e σ.state = some (t, p, w')) :
    (e.shows σ.state = [] ∧ Simulates w' s) ∨
      ∃ x s', e.shows σ.state = [x] ∧ RemoteCall.Step s x s' ∧ Simulates w' s' := by
  have hI := (hσ.wellBehaved fun e w he => (hdep.proper e w he).1.admits).invariant
  rcases Deployment.launch_cases hx with ⟨call, rfl, -, -, rfl⟩ | ⟨rfl, -, -,
    rfl⟩ | ⟨l, rfl, -, -, rfl⟩ |
    ⟨reply, inv, rfl, -, -, -, rfl⟩
  · obtain ⟨s', hstep, hs'⟩ := hs.ask call
    exact .inr ⟨_, s', rfl, hstep, hs'⟩
  · exact .inl ⟨rfl, hs⟩
  · exact .inl ⟨rfl, hs⟩
  · exact .inl ⟨rfl, hs.respond hI reply⟩

theorem Traced.simulated (hdep : D.Dependable discipline) (h : Traced D discipline es σ) :
    ∃ s, RemoteCall.Run es s ∧ Simulates σ.state s := by
  induction h with
  | start hsetup =>
      refine ⟨.empty, .start, fun k => rfl, fun n => rfl, fun b reply hb => ?_,
        fun n hn => ?_, fun k => rfl⟩
      · cases hb
      · exact absurd rfl hn
  | @action es σ t a rest c r w' h hp ha hx ih =>
      obtain ⟨s, hrun, hs⟩ := ih
      rcases hs.action hdep h.reaches hp hx with ⟨hnil, hs'⟩ | ⟨e, s', hone, hstep, hs'⟩
      · rw [hnil, List.append_nil]
        exact ⟨s, hrun, hs'⟩
      · rw [hone]
        exact ⟨s', hrun.step hstep, hs'⟩
  | @launch es σ e t p w' h hp he hx ih =>
      obtain ⟨s, hrun, hs⟩ := ih
      rcases hs.launch hdep h.reaches hx with ⟨hnil, hs'⟩ | ⟨e', s', hone, hstep, hs'⟩
      · rw [hnil, List.append_nil]
        exact ⟨s, hrun, hs'⟩
      · rw [hone]
        exact ⟨s', hrun.step hstep, hs'⟩

/-- **A bus is a service for remote calls**: what any run of it shows — the calls, the requests that
handlers are given, the responses that are published, and what the receivers get — is what some run
of such a service shows, and the receivers have got its results. -/
theorem bus_refines_remote_calls (hdep : D.Dependable discipline) (h : Traced D discipline es σ) :
    ∃ s, RemoteCall.Run es s ∧ ∀ k, s.result k = σ.state.resolved k := by
  obtain ⟨s, hrun, hs⟩ := h.simulated hdep
  exact ⟨s, hrun, hs.result⟩

end Refinement

/-- The bus with serializers that know one value. -/
def exchange_bus : Deployment :=
  small_bus (small_codec small_request [0, 0, 0, 0, 0]) (small_codec small_response [0, 0])

/-- A call goes through the bus. -/
def exchange_run : List (Move Thread Choice Launch) :=
  [.launch (.dispatch (small_call "a" [7]))] ++ small_steps (.dispatch 0) 16 ++
    [.launch (.receive 0)] ++ small_steps (.receive 0) 13 ++
    [.launch (.respond (small_reply 0 [7]))] ++ small_steps (.respond 0) 12 ++
    [.launch .watcher] ++ small_steps .watcher 16

theorem exchange_bus_dependable {P : Launch → World → Prop}
    (hP : ∀ e w, P e w → exchange_bus.Proper_use e w) :
    exchange_bus.Dependable (.launching P) :=
  ⟨hP, by decide, nofun, small_codec_roundTrip _ _, small_codec_roundTrip _ _⟩

theorem bus_refines_remote_calls_small :
    ∃ (es : List (Event Request Response)) (s : Service Request Response),
    RemoteCall.Run es s ∧ s.result 0 = some ⟨200, [7], "", []⟩ := by
  have hrun : (exchange_bus.system.play (.launching exchange_bus.Proper_use) exchange_run
      (Start small_start)).map
      (fun σ => decide (σ.state.resolved 0 = some ⟨200, [7], "", []⟩)) = some true := by
        decide +kernel
  obtain ⟨σ, hplay, hresolved⟩ := Option.map_eq_some_iff.mp hrun
  have hσ : exchange_bus.Reaches (.launching exchange_bus.Proper_use) σ := small_bus_reaches hplay
  obtain ⟨es, hes⟩ := hσ.traced
  obtain ⟨s, hs, hresult⟩ := bus_refines_remote_calls (exchange_bus_dependable fun e w he => he) hes
  exact ⟨es, s, hs, (hresult 0).trans (of_decide_eq_true hresolved)⟩

/-! ### A bus that computes -/

section Computing

variable {D : Deployment} {es : List (Event Request Response)} {σ : Configuration bus Thread World}
  {F : Request → Response}

/-- Proper use, and each reply is the value of `F` at the request of its handler. -/
def Deployment.Computes (D : Deployment) (F : Request → Response) (e : Launch) (w : World) : Prop :=
  D.Proper_use e w ∧
    match e with
    | .respond reply => ∀ inv ∈ w.invocations[reply.invocation]?, reply.response = F inv.request
    | .dispatch _ | .watcher | .receive _ => True

instance (D : Deployment) (F : Request → Response) (e : Launch) (w : World) :
    Decidable (D.Computes F e w) :=
  match e with
  | .respond reply => inferInstanceAs (Decidable (D.Proper_use (.respond reply) w ∧
      ∀ inv ∈ w.invocations[reply.invocation]?, reply.response = F inv.request))
  | .dispatch call => inferInstanceAs (Decidable (D.Proper_use (.dispatch call) w ∧ True))
  | .watcher => inferInstanceAs (Decidable (D.Proper_use .watcher w ∧ True))
  | .receive l => inferInstanceAs (Decidable (D.Proper_use (.receive l) w ∧ True))

/-- All replies are values of `F`. -/
theorem Deployment.Reaches.computed (h : D.Reaches (.launching (D.Computes F)) σ) :
    ∀ reply ∈ σ.state.replies, ∃ inv, σ.state.invocations[reply.invocation]? = some inv ∧
      reply.response = F inv.request := by
  refine h.induct (P := fun τ => ∀ reply ∈ τ.state.replies, ∃ inv,
    τ.state.invocations[reply.invocation]? = some inv ∧
    reply.response = F inv.request) ?_ ?_ ?_
  · intro mem names segments next _ reply hreply
    cases hreply
  · intro τ t a rest c r w' hτ ih hp _ hx reply hreply
    have hI := (hτ.wellBehaved fun e w he => he.1.1.admits).invariant
    rw [(exec_changes hx).replies] at hreply
    obtain ⟨inv, hinv, heq⟩ := ih reply hreply
    exact ⟨inv, (hI.extends hx).invocations _ inv hinv, heq⟩
  · intro τ e t p w' _ ih _ he hx reply hreply
    rcases Deployment.launch_cases hx with ⟨call, -, -, -, rfl⟩ | ⟨-, -, -,
      rfl⟩ | ⟨l, -, -, -, rfl⟩ |
      ⟨other, inv, rfl, hinv, -, -, rfl⟩
    · exact ih reply hreply
    · exact ih reply hreply
    · exact ih reply hreply
    · cases List.mem_append.mp hreply with
      | inl hold => exact ih reply hold
      | inr hnew =>
          obtain rfl := List.mem_singleton.mp hnew
          exact ⟨inv, hinv, he.2 inv hinv⟩

/-- The events of the handlers: which request each of them was given, and what it replied. -/
theorem Traced.handlers (h : Traced D (.launching (D.Computes F)) es σ) :
    (∀ n k q, .serve n k q ∈ es → ∃ inv, σ.state.invocations[n]? = some inv ∧ inv.request = q) ∧
      ∀ n a, .reply n a ∈ es → ∃ inv, σ.state.invocations[n]? = some inv ∧ a = F inv.request := by
  induction h with
  | start hsetup => exact ⟨nofun, nofun⟩
  | @action es σ t a rest c r w' h hp _ hx ih =>
      have hwell := h.reaches.wellBehaved fun e w he => he.1.1.admits
      have hext := hwell.invariant.extends hx
      have hold : ∀ {n inv}, σ.state.invocations[n]? = some inv → w'.invocations[n]? = some inv :=
        fun {n inv} hn => hext.invocations n inv hn
      have hl : D.Legal σ.state t a := (hwell.legal hp).2
      constructor
      · intro n k q hmem
        cases List.mem_append.mp hmem with
        | inl hes =>
            obtain ⟨inv, hinv, hq⟩ := ih.1 n k q hes
            exact ⟨inv, hold hinv, hq⟩
        | inr hnew =>
            by_cases hhandle : ∃ wk i request, a = .handle wk i request
            · obtain ⟨wk, i, request, rfl⟩ := hhandle
              obtain ⟨l, j, rfl, ho, -, rfl, -, -, hinvocations⟩ := hl.handle hx
              have hshown : Event.serve n k q ∈ ((owner σ.state.log i).call.toList.map fun k =>
                (.serve σ.state.invocations.length k request : Event Request Response)) := hnew
              rw [ho] at hshown
              obtain ⟨rfl, rfl, rfl⟩ := Event.serve.inj (List.mem_singleton.mp hshown)
              refine ⟨⟨wk, i, q⟩, ?_, rfl⟩
              rw [hinvocations, List.getElem?_append_right le_rfl, Nat.sub_self]
              rfl
            · exact absurd hnew
                (observed_serves (fun wk i request ha => hhandle ⟨wk, i, request, ha⟩))
      · intro n a' hmem
        cases List.mem_append.mp hmem with
        | inl hes =>
            obtain ⟨inv, hinv, hq⟩ := ih.2 n a' hes
            exact ⟨inv, hold hinv, hq⟩
        | inr hnew =>
            obtain ⟨reply, hreply, rfl, rfl⟩ := observed_reply hnew
            obtain ⟨inv, hinv, heq⟩ := h.reaches.computed reply hreply
            exact ⟨inv, hold hinv, heq⟩
  | @launch es σ e t p w' h hp he hx ih =>
      obtain ⟨calls, replies, rfl⟩ := Deployment.launch_eq hx
      constructor
      · intro n k q hmem
        refine ih.1 n k q ((List.mem_append.mp hmem).resolve_right fun hnew => ?_)
        cases e with
        | dispatch call => cases List.mem_singleton.mp hnew
        | _ => exact absurd hnew List.not_mem_nil
      · intro n a hmem
        refine ih.2 n a ((List.mem_append.mp hmem).resolve_right fun hnew => ?_)
        cases e with
        | dispatch call => cases List.mem_singleton.mp hnew
        | _ => exact absurd hnew List.not_mem_nil

/-- **A bus whose handlers compute a function computes it for its callers.**  No call is made,
served, answered or resolved twice; and a receiver that is resolved has got the value at the very
request of its call, after the call was made, one handler was given that request, and replied. -/
theorem bus_computes (h : Traced D (.launching (D.Computes F)) es σ)
    (hheap : D.hub_region.heap_size < 2 ^ 32) (hslots : D.target = .macos → D.num_slots ≤ 256)
    (hrequest : D.request_codec.RoundTrip) (hresponse : D.response_codec.RoundTrip) :
    (es.Pairwise fun e e' => ¬e.Excludes e') ∧
      ∀ k a, σ.state.resolved k = some a →
        ∃ n q, [.ask k q, .serve n k q, .reply n a, .deliver k a].Sublist es ∧ a = F q := by
  have hdep : D.Dependable (.launching (D.Computes F)) :=
    ⟨fun e w he => he.1, hheap, hslots, hrequest, hresponse⟩
  obtain ⟨s, hrun, hs⟩ := h.simulated hdep
  refine ⟨hrun.pairwise, fun k a hk => ?_⟩
  obtain ⟨n, q, hchain⟩ := hrun.chain ((hs.result k).trans hk)
  refine ⟨n, q, hchain, ?_⟩
  obtain ⟨hserves, hreplies⟩ := h.handlers
  obtain ⟨inv, hinv, rfl⟩ := hserves n k q (hchain.subset (by simp))
  obtain ⟨inv', hinv', rfl⟩ := hreplies n a (hchain.subset (by simp))
  obtain rfl := Option.some.inj (hinv.symm.trans hinv')
  rfl

end Computing

/-- A handler that sends the body back. -/
def echo (request : Request) : Response := ⟨200, request.body, "", []⟩

theorem bus_computes_small : ∃ (es : List (Event Request Response)) (n : ℕ) (q : Request),
    [.ask 0 q, .serve n 0 q, .reply n ⟨200, [7], "", []⟩,
      .deliver 0 ⟨200, [7], "", []⟩].Sublist es ∧
      Response.mk 200 [7] "" [] = echo q := by
  have hrun : (exchange_bus.system.play (.launching (exchange_bus.Computes echo)) exchange_run
      (Start small_start)).map (fun σ => σ.state.resolved 0) = some (some ⟨200, [7], "", []⟩) := by
        decide +kernel
  obtain ⟨σ, hplay, hresolved⟩ := Option.map_eq_some_iff.mp hrun
  have hσ : exchange_bus.Reaches (.launching (exchange_bus.Computes echo)) σ :=
    small_bus_reaches hplay
  obtain ⟨es, hes⟩ := hσ.traced
  obtain ⟨-, hresult⟩ :=
    bus_computes hes (by decide) nofun (small_codec_roundTrip _ _) (small_codec_roundTrip _ _)
  obtain ⟨n, q, hchain, heq⟩ := hresult 0 _ hresolved
  exact ⟨es, n, q, hchain, heq⟩

end SlotBus
