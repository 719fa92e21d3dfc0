import SlotBus.Delivery

/-!
# Answering again after a failure

`send_response` gives the slot up when it fails, unless it failed to serialize the metadata; a
handler that then answers again writes to a slot it no longer holds.

* `Delivers_home`, `Answers_held` — what a retry must not break;
* `retry_reaches_another_request` — a run in which it does;
* `retry_safe_after_serialization_failure` — it cannot, where only a failure to serialize is
  followed by another attempt.
-/

namespace SlotBus

open ByteMemory AtomicProgram

/-! ### Retries -/

/-- The `send_response` call that an entry reports to have returned an error. -/
def Entry.failure : Entry → Option ℕ
  | ⟨.respond c, .finish (.error _), _⟩ => some c
  | _ => none

instance decidable_forall_getElem? {α : Type} (l : List α) {P : ℕ → α → Prop}
    [∀ c x, Decidable (P c x)] :
    Decidable (∀ (c : ℕ) x, l[c]? = some x → P c x) :=
  decidable_of_iff (∀ c : Fin l.length, P c l[c]) <| by
    constructor
    · intro h c x hc
      obtain ⟨hlt, rfl⟩ := List.getElem?_eq_some_iff.mp hc
      exact h ⟨c, hlt⟩
    · exact fun h c => h c l[c] (List.getElem?_eq_getElem c.isLt)

/-- A handler invocation answers again only when every earlier attempt has returned an error. -/
def Retries_after_error (e : Launch) (w : World) : Prop :=
  match e with
  | .respond reply => ∀ (c : ℕ) earlier, w.replies[c]? = some earlier →
      earlier.invocation = reply.invocation → ∃ entry ∈ w.log, entry.failure = some c
  | .dispatch _ | .watcher | .receive _ => True

instance (e : Launch) (w : World) : Decidable (Retries_after_error e w) :=
  match e with
  | .respond reply => inferInstanceAs (Decidable (∀ (c : ℕ) earlier, w.replies[c]? = some earlier →
      earlier.invocation = reply.invocation → ∃ entry ∈ w.log, entry.failure = some c))
  | .dispatch _ | .watcher | .receive _ => .isTrue trivial

instance (w : World) (e : Launch) : Decidable (Deployment.Admits w e) :=
  match e with
  | .respond reply => inferInstanceAs (Decidable (∀ (c : ℕ) earlier, w.replies[c]? = some earlier →
      earlier.invocation = reply.invocation → phase w.log (.respond c) = .failed))
  | .dispatch _ | .watcher | .receive _ => .isTrue trivial

/-! ### What a retry must not break -/

/-- Whatever a receiver is given is the answer of a handler invocation that was given the request of
its dispatch call. -/
def Delivers_home (D : Deployment) (w : World) : Prop :=
  ∀ k response, w.resolved k = some response →
    ∃ (c : ℕ) (reply : Reply), w.replies[c]? = some reply ∧
      received reply.invocation w.log = some k ∧
      D.Answers w c response

/-- Whoever moves a slot to DONE answers for the handler invocation that holds the claimed slot. -/
def Answers_held (σ : Configuration bus Thread World) : Prop :=
  ∀ t i rest, σ.program t = .act (.store i SLOT_DONE) rest →
    slot_status σ.state.mem i = SLOT_CLAIMED ∧
      ∃ c n, t = .respond c ∧ σ.state.ledger.invocation_of c = some n ∧ Working σ i (.handler n)

/-- A response given up because its overflow region could not be created is answered again, with the
error status, after the slot has been claimed for the next request. -/
theorem retry_reaches_another_request : ∃ σ : Configuration bus Thread World,
    small_total_bus.Reaches (.launching fun e w => Retries_after_error e w ∧ Fresh_id e w) σ ∧
      ¬ Delivers_home small_total_bus σ.state := by
  have hrun :
      (small_total_bus.system.play (.launching fun e w => Retries_after_error e w ∧ Fresh_id e w)
        ([.launch (.dispatch (small_call "a" []))] ++ small_steps (.dispatch 0) 15 ++
              [.launch (.receive 0)] ++ small_steps (.receive 0) 11 ++
              [.launch (.respond (small_reply 0 (large_body 1)))] ++
              List.replicate 8 (.run (.respond 0) ⟨true, "no space"⟩) ++
              [.launch (.dispatch (small_call "b" []))] ++ small_steps (.dispatch 1) 15 ++
              [.launch (.receive 0)] ++ small_steps (.receive 0) 11 ++
              [.launch (.respond ⟨0, 500, [], "", []⟩)] ++ small_steps (.respond 1) 11 ++
              [.launch .watcher] ++ small_steps .watcher 14) (Start small_start)).map
      (fun σ => ((σ.state.resolved 1).isSome,
        σ.state.replies.map fun reply => received reply.invocation σ.state.log)) =
      some (true, [some 0, some 0]) := by decide +kernel
  obtain ⟨σ, hplay, hσ⟩ := Option.map_eq_some_iff.mp hrun
  obtain ⟨hresolved, hreceived⟩ := Prod.mk.inj hσ
  refine ⟨σ, small_bus_reaches hplay, fun hhome => ?_⟩
  obtain ⟨response, hresponse⟩ := Option.isSome_iff_exists.mp hresolved
  obtain ⟨c, reply, hc, hk, -⟩ := hhome 1 response hresponse
  -- both answers are those of the first invocation
  have hmem : some 1 ∈ [some 0, some 0] := by
    rw [← hk, ← hreceived]
    exact List.mem_map_of_mem (List.mem_of_getElem? hc)
  simp at hmem

/-! ### Retries that are safe -/

/-- **A retry after a failure to serialize is safe.**  Where the ids are new and a handler answers
again only if each earlier attempt failed to serialize its metadata, every response is the answer of
the handler that was given the request, and only the handler that holds a claimed slot moves it to
DONE. -/
theorem retry_safe_after_serialization_failure {D : Deployment} {σ : Configuration bus Thread World}
    (h : D.Reaches (.launching fun e w => Deployment.Admits w e ∧ Fresh_id e w) σ) :
    Delivers_home D σ.state ∧ Answers_held σ := by
  have hσ := h.wellBehaved fun e u (he : Deployment.Admits u e ∧ Fresh_id e u) => he.1
  have hI := hσ.invariant
  have hids := h.properIds fun e w (he : Deployment.Admits w e ∧ Fresh_id e w) => he.2
  constructor
  · intro k response hk
    obtain ⟨n, c, reply, hc, rfl, hreceived, hanswers⟩ := hI.resolved k response hk hids
    exact ⟨c, reply, hc, hreceived, hanswers⟩
  · intro t i rest hp
    have hl : D.Legal σ.state t (.store i SLOT_DONE) := (hσ.legal hp).2
    generalize hv : SLOT_DONE = v at hl
    cases hl with
    | bystander hb => exact hb.elim
    | own _ ho => exact ho.elim
    | @answer c _ ht _ =>
        cases ht with
        | @response n k _ _ ho hsole =>
            refine ⟨(hI.status i (hI.range i (by simp [ho]))).trans (congrArg Owner.status ho),
              c, n, rfl,
              hsole.invocation, ?_⟩
            exact (working_handler_iff hσ).mpr (by rw [ho]; rfl)
    | _ => exact absurd hv (by decide)

/-- The first attempt fails to serialize, the second one is delivered. -/
theorem retry_safe_small : ∃ (σ : Configuration bus Thread World) (c : ℕ) (reply : Reply),
    σ.state.resolved 0 = some ⟨200, [7], "", []⟩ ∧ σ.state.replies.length = 2 ∧
      σ.state.replies[c]? = some reply ∧ received reply.invocation σ.state.log = some 0 := by
  have hrun : ((small_bus (small_codec small_request [0, 0, 0, 0, 0])
      (small_codec small_response [0, 0])).system.play
      (.launching fun e w => Deployment.Admits w e ∧ Fresh_id e w)
      ([.launch (.dispatch (small_call "a" []))] ++ small_steps (.dispatch 0) 15 ++
        [.launch (.receive 0)] ++ small_steps (.receive 0) 11 ++
        [.launch (.respond ⟨0, 200, [7], "text", []⟩)] ++ small_steps (.respond 0) 1 ++
        [.launch (.respond (small_reply 0 [7]))] ++ small_steps (.respond 1) 12 ++
        [.launch .watcher] ++ small_steps .watcher 16) (Start small_start)).map
      (fun σ => (σ.state.resolved 0, σ.state.replies.length)) =
      some (some ⟨200, [7], "", []⟩, 2) := by decide +kernel
  obtain ⟨σ, hplay, hσ⟩ := Option.map_eq_some_iff.mp hrun
  obtain ⟨hresolved, hlength⟩ := Prod.mk.inj hσ
  obtain ⟨c, reply, hc, hreceived, -⟩ :=
    (retry_safe_after_serialization_failure (small_bus_reaches hplay)).1 0 _ hresolved
  exact ⟨σ, c, reply, hresolved, hlength, hc, hreceived⟩

end SlotBus
