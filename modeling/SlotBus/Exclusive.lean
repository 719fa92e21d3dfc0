import SlotBus.Startup

/-!
# Exclusive slot ownership

A slot that is being written is held by exactly one dispatch call, a claimed slot by exactly one
receive loop or handler invocation, and any other slot by nobody.  Its status changes in seven ways
only, each of them an action of the holder or of the thread whose compare-exchange claims the slot.

* `Dispatching`, `Working` — who holds a slot;
* `Passes` — the ways in which the status of a slot changes;
* `slots_exclusively_owned` — the result for all runs.
-/

namespace SlotBus

open ByteMemory AtomicProgram

/-- A handler invocation answers at most once. -/
def Answers_once (e : Launch) (w : World) : Prop :=
  match e with
  | .respond reply => ∀ earlier ∈ w.replies, earlier.invocation ≠ reply.invocation
  | .dispatch _ | .watcher | .receive _ => True

instance (e : Launch) (w : World) : Decidable (Answers_once e w) :=
  match e with
  | .respond reply =>
      inferInstanceAs (Decidable (∀ earlier ∈ w.replies, earlier.invocation ≠ reply.invocation))
  | .dispatch _ | .watcher | .receive _ => .isTrue trivial

theorem Answers_once.admits {w : World} {e : Launch} (h : Answers_once e w) :
    Deployment.Admits w e := by
  cases e with
  | respond reply =>
      intro c earlier hc heq
      exact absurd heq (h earlier (List.mem_of_getElem? hc))
  | _ => trivial

/-! ### Holders -/

section Holders

variable (σ : Configuration bus Thread World) (i : ℕ)

/-- Dispatch call `k` is under way, and since its compare-exchange claimed slot `i` it has not
stored a status. -/
def Dispatching (k : ℕ) : Prop :=
  phase σ.state.log (.dispatch k) = .holding i ∧ σ.program (.dispatch k) ≠ .done ()

/-- What can hold a claimed slot: a receive loop that reads it, or a handler invocation. -/
inductive Activity where
  | loop (l : ℕ)
  | handler (n : ℕ)

/-- A receive loop works on a slot from its compare-exchange until it invokes the handler or rejects
the request; from then on the invocation does, until a `send_response` call of it has stored a
status. -/
def Working : Activity → Prop
  | .loop l => phase σ.state.log (.receive l) = .holding i ∧ σ.program (.receive l) ≠ .done ()
  | .handler n => σ.state.ledger.slot_of n = some i ∧
      ∀ c, σ.state.ledger.invocation_of c = some n → (phase σ.state.log (.respond c)).Waiting

/-- Slot `i` has exactly one holder while it is being written or claimed, and no holder at any other
time. -/
structure Exclusive : Prop where
  writing : slot_status σ.state.mem i = SLOT_WRITING ↔ ∃! k, Dispatching σ i k
  claimed : slot_status σ.state.mem i = SLOT_CLAIMED ↔ ∃! a, Working σ i a
  dispatching : ∀ k, Dispatching σ i k → slot_status σ.state.mem i = SLOT_WRITING
  working : ∀ a, Working σ i a → slot_status σ.state.mem i = SLOT_CLAIMED
  unheld : slot_status σ.state.mem i = SLOT_FREE ∨ slot_status σ.state.mem i = SLOT_READY →
    (∀ k, ¬ Dispatching σ i k) ∧ ∀ a, ¬ Working σ i a

/-- How a thread may change the status of slot `i`, from one value to another. -/
inductive Passes : Thread → Action → ℕ → ℕ → Prop where
  | claim (k : ℕ) :
      Passes (.dispatch k) (.compare_exchange i SLOT_FREE SLOT_WRITING) SLOT_FREE SLOT_WRITING
  | publish {k : ℕ} (h : Dispatching σ i k) :
      Passes (.dispatch k) (.store i SLOT_READY) SLOT_WRITING SLOT_READY
  | withdraw {k : ℕ} (h : Dispatching σ i k) :
      Passes (.dispatch k) (.store i SLOT_FREE) SLOT_WRITING SLOT_FREE
  | take (l : ℕ) :
      Passes (.receive l) (.compare_exchange i SLOT_READY SLOT_CLAIMED) SLOT_READY SLOT_CLAIMED
  | reject {l : ℕ} (h : Working σ i (.loop l)) :
      Passes (.receive l) (.store i SLOT_FREE) SLOT_CLAIMED SLOT_FREE
  | answer {c n : ℕ} (hc : σ.state.ledger.invocation_of c = some n) (h : Working σ i (.handler n)) :
      Passes (.respond c) (.store i SLOT_DONE) SLOT_CLAIMED SLOT_DONE
  | give_up {c n : ℕ} (hc : σ.state.ledger.invocation_of c = some n)
      (h : Working σ i (.handler n)) :
      Passes (.respond c) (.store i SLOT_FREE) SLOT_CLAIMED SLOT_FREE
  | collect : Passes .watcher (.compare_exchange i SLOT_DONE SLOT_FREE) SLOT_DONE SLOT_FREE

end Holders

/-! ### Holders and owners -/

section Owners

variable {D : Deployment} {hD : D.Sound} {σ : Configuration bus Thread World} {i : ℕ}

theorem Owner.status_eq_writing {o : Owner} : o.status = SLOT_WRITING ↔ ∃ k, o = .writing k := by
  cases o <;> simp [status, SLOT_FREE, SLOT_WRITING, SLOT_READY, SLOT_CLAIMED, SLOT_DONE]

theorem Owner.status_eq_claimed {o : Owner} :
    o.status = SLOT_CLAIMED ↔ (∃ l, o.loop = some l) ∨ ∃ n, o.invocation = some n := by
  cases o <;>
    simp [status, loop, invocation, SLOT_FREE, SLOT_WRITING, SLOT_READY, SLOT_CLAIMED, SLOT_DONE]

/-- A dispatch call holds the slot exactly if it is the owner. -/
theorem dispatching_iff (h : (D.protocol hD).WellBehaved σ) (hserializes : D.Serializes) {k : ℕ} :
    Dispatching σ i k ↔ owner σ.state.log i = .writing k := by
  refine ⟨fun hk => (h.invariant.ledger.writing i k).mpr hk.1, fun hk => ?_⟩
  have hphase := (h.invariant.ledger.writing i k).mp hk
  exact ⟨hphase, fun hdone => h.idle hdone hserializes i hphase⟩

theorem working_loop_iff (h : (D.protocol hD).WellBehaved σ) {l : ℕ} :
    Working σ i (.loop l) ↔ (owner σ.state.log i).loop = some l := by
  refine ⟨fun hl => (h.invariant.ledger.reading i l).mpr hl.1, fun hl => ?_⟩
  have hphase := (h.invariant.ledger.reading i l).mp hl
  exact ⟨hphase, fun hdone => h.idle hdone i hphase⟩

theorem working_handler_iff (h : (D.protocol hD).WellBehaved σ) {n : ℕ} :
    Working σ i (.handler n) ↔ (owner σ.state.log i).invocation = some n :=
  (h.invariant.ledger.handling i n).symm

/-- Two activities never work on the same slot. -/
theorem working_unique (h : (D.protocol hD).WellBehaved σ) {a b : Activity} (ha : Working σ i a)
    (hb : Working σ i b) : a = b := by
  have hexcl : ∀ {l n}, (owner σ.state.log i).loop = some l →
      (owner σ.state.log i).invocation ≠ some n := by
    intro l n
    cases owner σ.state.log i <;> simp [Owner.loop, Owner.invocation]
  cases a with
  | loop l =>
      rw [working_loop_iff h] at ha
      cases b with
      | loop m =>
          rw [working_loop_iff h] at hb
          rw [Option.some.inj (ha.symm.trans hb)]
      | handler m => exact absurd ((working_handler_iff h).mp hb) (hexcl ha)
  | handler n =>
      rw [working_handler_iff h] at ha
      cases b with
      | loop m => exact absurd ha (hexcl ((working_loop_iff h).mp hb))
      | handler m =>
          rw [working_handler_iff h] at hb
          rw [Option.some.inj (ha.symm.trans hb)]

theorem exclusive_of_wellBehaved (h : (D.protocol hD).WellBehaved σ) (hserializes : D.Serializes)
    (hi : i < D.num_slots) : Exclusive σ i := by
  have hstatus := h.invariant.status i hi
  have hdispatching : ∀ k, Dispatching σ i k → slot_status σ.state.mem i = SLOT_WRITING :=
    fun k hk =>
    hstatus.trans (Owner.status_eq_writing.mpr ⟨k, (dispatching_iff h hserializes).mp hk⟩)
  have hworking : ∀ a, Working σ i a → slot_status σ.state.mem i = SLOT_CLAIMED := by
    intro a ha
    refine hstatus.trans (Owner.status_eq_claimed.mpr ?_)
    cases a with
    | loop l => exact .inl ⟨l, (working_loop_iff h).mp ha⟩
    | handler n => exact .inr ⟨n, (working_handler_iff h).mp ha⟩
  refine ⟨⟨fun hw => ?_, fun ⟨k, hk, _⟩ => hdispatching k hk⟩,
    ⟨fun hc => ?_, fun ⟨a, ha, _⟩ => hworking a ha⟩, hdispatching, hworking, fun hfree =>
      ⟨fun k hk => ?_, fun a ha => ?_⟩⟩
  · obtain ⟨k, hk⟩ := Owner.status_eq_writing.mp (hstatus.symm.trans hw)
    refine ⟨k, (dispatching_iff h hserializes).mpr hk, fun j hj => ?_⟩
    exact Owner.writing.inj (((dispatching_iff h hserializes).mp hj).symm.trans hk)
  · rcases Owner.status_eq_claimed.mp (hstatus.symm.trans hc) with ⟨l, hl⟩ | ⟨n, hn⟩
    · exact ⟨.loop l, (working_loop_iff h).mpr hl, fun b hb =>
        working_unique h hb ((working_loop_iff h).mpr hl)⟩
    · exact ⟨.handler n, (working_handler_iff h).mpr hn,
        fun b hb => working_unique h hb ((working_handler_iff h).mpr hn)⟩
  · rw [hdispatching k hk] at hfree
    exact absurd hfree (by decide)
  · rw [hworking a ha] at hfree
    exact absurd hfree (by decide)

/-! ### Status changes -/

section Steps

variable {t : Thread} {a : Action} {c : Choice} {w w' : World} {r : Answer a}

/-- Only an action on its status word changes the status of a slot. -/
theorem status_slot_of_ne (hD : D.Sound) (hI : D.Invariant w) (hl : D.Legal w t a)
    (hx : (machine D.target).exec t a c w = some (r, w')) (hi : i < D.num_slots)
    (hne : slot_status w'.mem i ≠ slot_status w.mem i) : a.status_slot = some i := by
  cases hl.move hD hI hx with
  | still _ hstatus => exact absurd (hstatus i hi) hne
  | follow _ _ hstatus => exact absurd (hstatus i hi) hne
  | @turn j o p ha hj hturn _ hmem _ _ =>
      by_cases hij : j = i
      · exact hij ▸ ha
      · rw [hmem, slot_status_set_of_ne hij] at hne
        exact absurd rfl hne
  | invoke _ _ _ _ hstatus _ _ => exact absurd (hstatus i hi) hne

theorem status_of_store {v : ℕ} {r : Unit} (hv : v < 2 ^ 32)
    (hx : (machine D.target).exec t (.store i v) c w = some (r, w')) :
    slot_status w'.mem i = v := by
  rw [Deployment.mem_of_store hx, slot_status_set_self hv]

/-- A compare-exchange that changes the status has found what it expected. -/
theorem status_of_swap {expected new : ℕ} {r : Bool} (hnew : new < 2 ^ 32)
    (hx : (machine D.target).exec t (.compare_exchange i expected new) c w = some (r, w'))
    (hne : slot_status w'.mem i ≠ slot_status w.mem i) :
    slot_status w.mem i = expected ∧ slot_status w'.mem i = new := by
  rcases Deployment.mem_of_swap hx with ⟨-, hold, hmem⟩ | ⟨-, -, hmem⟩
  · exact ⟨hold, by rw [hmem, slot_status_set_self hnew]⟩
  · rw [hmem] at hne
    exact absurd rfl hne

end Steps

/-- **Every change of a slot's status is one of the seven**, and made by the holder or by the winner
of a compare-exchange. -/
theorem passes_of_wellBehaved (h : (D.protocol hD).WellBehaved σ) (hserializes : D.Serializes)
    (hi : i < D.num_slots) {t : Thread} {a : Action}
    {rest : Answer a → Program bus Unit} {c : Choice} {r : Answer a} {w' : World}
    (hp : σ.program t = .act a rest) (hx : (machine D.target).exec t a c σ.state = some (r, w'))
    (hne : slot_status w'.mem i ≠ slot_status σ.state.mem i) :
    Passes σ i t a (slot_status σ.state.mem i) (slot_status w'.mem i) := by
  have hI := h.invariant
  have hl : D.Legal σ.state t a := (h.legal hp).2
  have ha := status_slot_of_ne hD hI hl hx hi hne
  -- the old status is that of the owner
  have hold : ∀ {o : Owner}, owner σ.state.log i = o → slot_status σ.state.mem i = o.status :=
    fun ho => (hI.status i hi).trans (congrArg Owner.status ho)
  cases hl with
  | bystander hb =>
      rw [hb.silent.2.1] at ha
      cases ha
  | own ht ho =>
      rw [(SlotHalf.own_silent ho).2] at ha
      cases ha
  | @claim k j hj hidle =>
      obtain rfl : j = i := Option.some.inj ha
      obtain ⟨h1, h2⟩ := status_of_swap (by decide) hx hne
      rw [h1, h2]
      exact .claim k
  | @publish k j ho hP =>
      obtain rfl : j = i := Option.some.inj ha
      rw [hold ho, status_of_store (by decide) hx]
      exact .publish ((dispatching_iff h hserializes).mpr ho)
  | @withdraw k j ho =>
      obtain rfl : j = i := Option.some.inj ha
      rw [hold ho, status_of_store (by decide) hx]
      exact .withdraw ((dispatching_iff h hserializes).mpr ho)
  | @take l j hj hidle =>
      obtain rfl : j = i := Option.some.inj ha
      obtain ⟨h1, h2⟩ := status_of_swap (by decide) hx hne
      rw [h1, h2]
      exact .take l
  | @reject l j k ho =>
      obtain rfl : j = i := Option.some.inj ha
      rw [hold ho, status_of_store (by decide) hx]
      exact .reject ((working_loop_iff h).mpr (by rw [ho]; rfl))
  | @answer c j ht hP =>
      obtain rfl : j = i := Option.some.inj ha
      cases ht with
      | @response n k _ _ ho hsole =>
          rw [hold ho, status_of_store (by decide) hx]
          exact .answer hsole.invocation ((working_handler_iff h).mpr (by rw [ho]; rfl))
  | @give_up c j ht =>
      obtain rfl : j = i := Option.some.inj ha
      cases ht with
      | @response n k _ _ ho hsole =>
          rw [hold ho, status_of_store (by decide) hx]
          exact .give_up hsole.invocation ((working_handler_iff h).mpr (by rw [ho]; rfl))
  | @collect j hj =>
      obtain rfl : j = i := Option.some.inj ha
      obtain ⟨h1, h2⟩ := status_of_swap (by decide) hx hne
      rw [h1, h2]
      exact .collect
  | _ => cases ha

/-- **Exclusive slot ownership**, for any number of slots, dispatch calls, receive loops and
handlers: in every state that a run reaches, a slot that is being written or is claimed has exactly
one holder and any other slot none; and every step that changes the status of a slot is one of the
seven that `Passes` lists. -/
theorem slots_exclusively_owned {D : Deployment} {σ : Configuration bus Thread World}
    (h : D.Reaches (.launching Answers_once) σ) (hserializes : D.Serializes) {i : ℕ}
    (hi : i < D.num_slots) :
    Exclusive σ i ∧
      ∀ m σ', D.system.next m σ = some σ' → slot_status σ'.state.mem i ≠ slot_status σ.state.mem i →
        ∃ t c a k, m = .run t c ∧ σ.program t = .act a k ∧
          Passes σ i t a (slot_status σ.state.mem i) (slot_status σ'.state.mem i) := by
  have hσ := h.wellBehaved fun e u he => he.admits
  refine ⟨exclusive_of_wellBehaved hσ hserializes hi, fun m σ' hnext hne => ?_⟩
  cases m with
  | run t c =>
      simp only [System.next] at hnext
      cases hp : σ.program t with
      | done v => simp [hp] at hnext
      | act a k =>
          simp only [hp, Option.map_eq_some_iff] at hnext
          obtain ⟨⟨r, w'⟩, hx, rfl⟩ := hnext
          exact ⟨t, c, a, k, rfl, hp, passes_of_wellBehaved hσ hserializes hi hp hx hne⟩
  | launch e =>
      -- a launch leaves the mapping alone
      simp only [System.next, Option.bind_eq_some_iff] at hnext
      obtain ⟨⟨t, p, w'⟩, hl, hnext⟩ := hnext
      obtain ⟨calls, replies, rfl⟩ := Deployment.launch_eq hl
      cases hp : σ.program t with
      | act a k => simp [hp] at hnext
      | done v =>
          simp only [hp, Option.some.injEq] at hnext
          subst hnext
          exact absurd rfl hne

end Owners

/-- The receive loop has just claimed a request. -/
theorem slots_exclusively_owned_small : ∃ σ, small_total_bus.Reaches (.launching Answers_once) σ ∧
    slot_status σ.state.mem 0 = SLOT_CLAIMED ∧ Exclusive σ 0 := by
  have hrun : (small_total_bus.system.play (.launching Answers_once)
      ([.launch (.dispatch (small_call "a" [7]))] ++ small_steps (.dispatch 0) 16 ++
        [.launch (.receive 0)] ++ small_steps (.receive 0) 4) (Start small_start)).map
      (fun σ => slot_status σ.state.mem 0) = some SLOT_CLAIMED := by decide +kernel
  obtain ⟨σ, hplay, hstatus⟩ := Option.map_eq_some_iff.mp hrun
  have hσ : small_total_bus.Reaches (.launching Answers_once) σ := small_bus_reaches hplay
  exact ⟨σ, hσ, hstatus, (slots_exclusively_owned hσ (fun _ => ⟨_, rfl⟩) (by decide)).1⟩

end SlotBus
