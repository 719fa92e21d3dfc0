import SlotBus.Exclusive

/-!
# No cross-delivery

A receiver is resolved with the answer that the handler gave to the very request of its dispatch
call.

* `Proper_use` — what the callers promise: distinct ids that fit, lengths that fit, one answer for
  each invocation;
* `no_cross_delivery` — the result for all runs.
-/

namespace SlotBus

open ByteMemory AtomicProgram

/-- The id of a new dispatch call fits into the id field and has not been used. -/
def Fresh_id (e : Launch) (w : World) : Prop :=
  match e with
  | .dispatch call => FitsIdField call.req_id ∧ ∀ earlier ∈ w.calls, earlier.req_id ≠ call.req_id
  | .watcher | .receive _ | .respond _ => True

instance (e : Launch) (w : World) : Decidable (Fresh_id e w) :=
  match e with
  | .dispatch call =>
      inferInstanceAs
        (Decidable (FitsIdField call.req_id ∧ ∀ earlier ∈ w.calls, earlier.req_id ≠ call.req_id))
  | .watcher | .receive _ | .respond _ => .isTrue trivial

namespace Deployment

variable (D : Deployment)

instance decidable_forall_ok {ε α : Type} {P : α → Prop} [DecidablePred P] (x : Except ε α) :
    Decidable (∀ v, x = .ok v → P v) :=
  match x with
  | .ok v => decidable_of_iff (P v) ⟨by rintro h _ ⟨⟩; exact h, fun h => h v rfl⟩
  | .error _ => .isTrue nofun

instance (call : DispatchCall) : Decidable (D.CallFits call) :=
  decidable_of_iff (_ ∧ _) ⟨fun h => ⟨h.1, h.2⟩, fun h => ⟨h.metadata, h.body⟩⟩

instance (reply : Reply) : Decidable (D.ReplyFits reply) :=
  decidable_of_iff (_ ∧ _) ⟨fun h => ⟨h.1, h.2⟩, fun h => ⟨h.metadata, h.body⟩⟩

/-- The metadata of a new request or response has at most 65535 bytes, and its body is shorter than
4 GiB. -/
def Lengths_fit (e : Launch) : Prop :=
  match e with
  | .dispatch call => D.CallFits call
  | .respond reply => D.ReplyFits reply
  | .watcher | .receive _ => True

instance (e : Launch) : Decidable (D.Lengths_fit e) :=
  match e with
  | .dispatch call => inferInstanceAs (Decidable (D.CallFits call))
  | .respond reply => inferInstanceAs (Decidable (D.ReplyFits reply))
  | .watcher | .receive _ => .isTrue trivial

/-- What the callers of the bus promise. -/
def Proper_use (e : Launch) (w : World) : Prop := Answers_once e w ∧ Fresh_id e w ∧ D.Lengths_fit e

instance (e : Launch) (w : World) : Decidable (D.Proper_use e w) :=
  inferInstanceAs (Decidable (_ ∧ _ ∧ _))

variable {D} {discipline : Discipline bus Thread World Launch} {σ : Configuration bus Thread World}

/-- Ids that are new each time are distinct. -/
theorem Reaches.properIds (hfresh : ∀ e w, discipline.launch e w → Fresh_id e w)
    (h : D.Reaches discipline σ) : σ.state.ProperIds := by
  have hlist : (∀ call ∈ σ.state.calls, FitsIdField call.req_id) ∧
      (σ.state.calls.map DispatchCall.req_id).Nodup := by
    refine h.induct (P := fun τ => (∀ call ∈ τ.state.calls, FitsIdField call.req_id) ∧
      (τ.state.calls.map DispatchCall.req_id).Nodup) (fun _ _ _ _ _ => ⟨nofun, List.nodup_nil⟩)
      (fun τ t a rest c r w' _ ih _ _ hx => ?_)
      fun τ e t p w' _ ih _ he hx => ?_
    · rwa [(exec_changes hx).calls]
    · rcases launch_cases hx with ⟨call, rfl, -, -, rfl⟩ | ⟨-, -, -, rfl⟩ | ⟨l, -, -, -, rfl⟩ |
        ⟨reply, inv, -, -, -, -, rfl⟩
      · obtain ⟨hfits, hnew⟩ := hfresh _ _ he
        refine ⟨fun other hother => ?_, ?_⟩
        · rcases List.mem_append.mp hother with hold | hlast
          · exact ih.1 other hold
          · exact List.mem_singleton.mp hlast ▸ hfits
        · rw [List.map_append, List.nodup_append]
          refine ⟨ih.2, by simp, fun id hid id' hid' => ?_⟩
          obtain ⟨earlier, hearlier, rfl⟩ := List.mem_map.mp hid
          obtain rfl := List.mem_singleton.mp hid'
          exact hnew earlier hearlier
      · exact ih
      · exact ih
      · exact ih
  refine ⟨fun k call hk => hlist.1 call (List.mem_of_getElem? hk), fun j k c d hj hk heq => ?_⟩
  have hlt : j < (σ.state.calls.map DispatchCall.req_id).length := by
    rw [List.length_map]
    exact (List.getElem?_eq_some_iff.mp hj).1
  refine (List.getElem?_inj hlt hlist.2).mp ?_
  rw [List.getElem?_map, List.getElem?_map, hj, hk]
  exact congrArg some heq

/-- The lengths of all calls and replies fit. -/
theorem Reaches.lengths (hlengths : ∀ e w, discipline.launch e w → D.Lengths_fit e)
    (h : D.Reaches discipline σ) :
    (∀ call ∈ σ.state.calls, D.CallFits call) ∧ ∀ reply ∈ σ.state.replies, D.ReplyFits reply := by
  refine h.induct (P := fun τ => (∀ call ∈ τ.state.calls, D.CallFits call) ∧
    ∀ reply ∈ τ.state.replies, D.ReplyFits reply) (fun _ _ _ _ _ => ⟨nofun, nofun⟩)
      (fun τ t a rest c r w' _ ih _ _ hx => ?_)
    fun τ e t p w' _ ih _ he hx => ?_
  · rwa [(exec_changes hx).calls, (exec_changes hx).replies]
  · have hfits := hlengths e _ he
    rcases launch_cases hx with ⟨call, rfl, -, -, rfl⟩ | ⟨-, -, -, rfl⟩ | ⟨l, -, -, -, rfl⟩ |
      ⟨reply, inv, rfl, -, -, -, rfl⟩
    · refine ⟨fun other hother => ?_, ih.2⟩
      rcases List.mem_append.mp hother with hold | hlast
      · exact ih.1 other hold
      · exact List.mem_singleton.mp hlast ▸ hfits
    · exact ih
    · exact ih
    · refine ⟨ih.1, fun other hother => ?_⟩
      rcases List.mem_append.mp hother with hold | hlast
      · exact ih.2 other hold
      · exact List.mem_singleton.mp hlast ▸ hfits

end Deployment

/-- **No cross-delivery.**  Whenever the receiver of a dispatch call is resolved, some handler
invocation was given exactly the request of that call, and the response is exactly what this
invocation gave to `send_response`. -/
theorem no_cross_delivery {D : Deployment} {σ : Configuration bus Thread World}
    (h : D.Reaches (.launching D.Proper_use) σ) (hheap : D.hub_region.heap_size < 2 ^ 32)
    (hslots : D.target = .macos → D.num_slots ≤ 256) (hrequest : D.request_codec.RoundTrip)
    (hresponse : D.response_codec.RoundTrip) {k : ℕ} {response : Response}
    (hresolved : σ.state.resolved k = some response) :
    ∃ (n : ℕ) (inv : Invocation) (c : ℕ) (reply : Reply) (call : DispatchCall),
      σ.state.calls[k]? = some call ∧ received n σ.state.log = some k ∧
      σ.state.invocations[n]? = some inv ∧
      inv.request = Request.build call.req_id (method_to_u8 call.method) call.meta_ call.body ∧
      σ.state.replies[c]? = some reply ∧ reply.invocation = n ∧
      response = ⟨reply.status, reply.body, reply.content_type, reply.headers⟩ := by
  have hI := (h.wellBehaved fun e u (he : D.Proper_use e u) => he.1.admits).invariant
  have hids := h.properIds fun e w (he : D.Proper_use e w) => he.2.1
  obtain ⟨hcalls, hreplies⟩ := h.lengths fun e w (he : D.Proper_use e w) => he.2.2
  have hprecise : D.Precise := ⟨h.faithful hheap, hslots⟩
  obtain ⟨n, c, reply, hc, hn, hreceived, hanswers⟩ := hI.resolved k response hresolved hids
  obtain ⟨inv, hinv, call, hcall, hhanded⟩ := hI.invoked n k hreceived
  obtain ⟨reply', hc', hanswers⟩ := hanswers
  obtain rfl := Option.some.inj (hc.symm.trans hc')
  -- the handler was given what the call dispatched
  obtain ⟨bytes, m, hbytes, hm, hbuild⟩ :=
    hhanded hprecise (hcalls call (List.mem_of_getElem? hcall)) (hids.fits k call hcall)
  obtain rfl := Except.ok.inj (hm.symm.trans (hrequest _ _ hbytes))
  -- the receiver was given what the handler answered
  obtain ⟨bytes', m', hbytes', hm', hanswer⟩ :=
    hanswers hprecise (hreplies reply (List.mem_of_getElem? hc))
  obtain rfl := Except.ok.inj (hm'.symm.trans (hresponse _ _ hbytes'))
  exact ⟨n, inv, c, reply, call, hcall, hreceived, hinv, hbuild, hc, hn, hanswer⟩

/-- A request with an overflow region is answered. -/
theorem no_cross_delivery_small : ∃ (σ : Configuration bus Thread World) (reply : Reply),
    σ.state.resolved 0 = some ⟨200, [7], "", []⟩ ∧ reply ∈ σ.state.replies ∧
      Response.mk 200 [7] "" [] =
        ⟨reply.status, reply.body, reply.content_type, reply.headers⟩ := by
  have hrun : ((small_bus (small_codec small_request [0, 0, 0, 0, 0])
      (small_codec small_response [0, 0])).system.play
      (.launching (small_bus (small_codec small_request [0, 0, 0, 0, 0])
        (small_codec small_response [0, 0])).Proper_use)
      ([.launch (.dispatch (small_call "a" (large_body 1)))] ++ small_steps (.dispatch 0) 18 ++
        [.launch (.receive 0)] ++ small_steps (.receive 0) 13 ++
        [.launch (.respond (small_reply 0 [7]))] ++ small_steps (.respond 0) 12 ++
        [.launch .watcher] ++ small_steps .watcher 16) (Start small_start)).map
      (fun σ => σ.state.resolved 0) = some (some ⟨200, [7], "", []⟩) := by decide +kernel
  obtain ⟨σ, hplay, hresolved⟩ := Option.map_eq_some_iff.mp hrun
  obtain ⟨n, inv, c, reply, call, -, -, -, -, hc, -, heq⟩ :=
    no_cross_delivery (small_bus_reaches hplay)
    (by decide) nofun (small_codec_roundTrip _ _) (small_codec_roundTrip _ _) hresolved
  exact ⟨σ, reply, hresolved, List.mem_of_getElem? hc, heq⟩

end SlotBus
