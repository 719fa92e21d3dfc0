import SlotBus.Failures
import SlotBus.Legible
import SlotBus.Startup

/-!
# Operations one at a time

A session executes complete operations one after the other: dispatch calls, visits of the receive
loop and of the watcher, and `send_response` calls of the handlers.  A slot that is not free and an
entry of the pending map should stand for each other.

* `Operated` — the sessions of a bus that has been set up;
* `Completes` — what an operation must find for none of the error paths that forget the pending map
  to be taken;
* `Operated.watcher_pass`, `Operated.receive_pass` — a pass is a session of visits;
* `receivers_match_slots` — **after every operation of a session** of such operations, each slot in
  use has its receiver;
* `receiver_is_orphaned` — a session with an operation that takes one of those paths.
-/

namespace SlotBus

open ByteMemory AtomicProgram AtomicProgram.Program

variable {target : Target} {t : Thread} {w w' : World}

/-- The id in the record of a slot, as `read_req_id` decodes it. -/
def slot_id (mem : Memory) (i : ℕ) : String := decode_req_id (read mem (slot_address i + 4) 36)

namespace Deployment

variable (D : Deployment)

/-- **No orphaned receivers**: the ids of the slots in use are the keys of the pending map, each of
one slot. -/
def OneReceiverEach (w : World) : Prop :=
  Set.BijOn (slot_id w.mem) {i | i < D.num_slots ∧ slot_status w.mem i ≠ SLOT_FREE}
    {id | w.pending id ≠ none}

/-! ### Sessions -/

end Deployment

/-- A complete operation.  Of a response it is also given whether the operating system may refuse to
create regions while it is sent. -/
inductive Operation where
  | dispatch (call : DispatchCall)
  | receive (i : ℕ)
  | respond (reply : Reply) (refuses : Bool)
  | watch (i : ℕ)

namespace Deployment

variable (D : Deployment)

/-- What is executed one at a time: from a bus that has just been set up, with the ids that have
been used and the handler invocations that have been answered.  Each operation satisfies `C` in the
world it starts in. -/
inductive Operated (C : Operation → World → Prop) : World → Set String → Set ℕ → Prop where
  | start {mem : Memory} {names : String → Option ℕ} {segments : ℕ → Segment} {next_segment : ℕ}
      (hsetup : D.SetUp mem) : Operated C (.start mem names segments next_segment) ∅ ∅
  | dispatch {w w' : World} {ids : Set String} {answered : Set ℕ} {t : Thread}
      {k : ℕ} {call : DispatchCall} {result : Except SlotBusError Unit}
      (h : Operated C w ids answered) (hfits : FitsIdField call.req_id) (hnew : call.req_id ∉ ids)
      (hC : C (.dispatch call) w)
      (hrun : Runs (machine D.target) t (D.dispatch k call).run w result w') :
      Operated C w' (insert call.req_id ids) answered
  | receive {w w' : World} {ids : Set String} {answered : Set ℕ} {t : Thread} {l i : ℕ}
      (h : Operated C w ids answered) (hi : i < D.worker_region.num_slots) (hC : C (.receive i) w)
      (hrun : Runs (machine D.target) t (D.receive_slot l i) w () w') : Operated C w' ids answered
  | respond {w w' : World} {ids : Set String} {answered : Set ℕ} {t : Thread}
      {inv : Invocation} {reply : Reply} {refuses : Bool} {result : Except SlotBusError Unit}
      (h : Operated C w ids answered) (hinv : w.invocations[reply.invocation]? = some inv)
      (honce : reply.invocation ∉ answered) (hC : C (.respond reply refuses) w)
      (hrun : Runs (host D.target refuses) t
            (D.send_response inv.worker inv.slot reply.status reply.body reply.content_type
              reply.headers).run w result w') :
      Operated C w' ids (insert reply.invocation answered)
  | watch {w w' : World} {ids : Set String} {answered : Set ℕ} {t : Thread} {i : ℕ}
      (h : Operated C w ids answered) (hi : i < D.hub_region.num_slots) (hC : C (.watch i) w)
      (hrun : Runs (machine D.target) t (D.watch_slot i) w () w') : Operated C w' ids answered
  | wait {w w' : World} {ids : Set String} {answered : Set ℕ} {t : Thread} {a : Action}
      {c : Choice} {r : Answer a} (h : Operated C w ids answered)
      (ha : (∃ side, a = .running side) ∨ ∃ e, a = .wait e)
      (hx : (machine D.target).exec t a c w = some (r, w')) : Operated C w' ids answered

/-- The half of a slot that a response of a worker is written to. -/
def response_half (i : ℕ) : SlotHalf := ⟨.response, D.target, D.worker_region, D.config, i⟩

/-- What an operation must find for no error path that forgets the pending map to be taken: a
request for which there is a slot can be serialized, what has been published can be read, and there
is room for a response that can be serialized, once the region of the last response in that slot has
been dropped. -/
def Completes : Operation → World → Prop
  | .dispatch call, w => first_free D.hub_region w.mem ≠ none →
      ∃ meta_bytes, D.request_codec.to_allocvec call.meta_ = .ok meta_bytes
  | .receive i, w => slot_status w.mem i = SLOT_READY →
      Legible .request D.request_codec D.target D.worker_region i D.config w
  | .respond reply refuses, w => ∀ inv meta_bytes, w.invocations[reply.invocation]? = some inv →
      D.response_codec.to_allocvec ⟨reply.content_type, reply.headers⟩ = .ok meta_bytes →
      (D.response_half inv.slot).Accepts refuses meta_bytes reply.body
        (w.drop_option (w.overflow_regions (.worker inv.worker) inv.slot))
  | .watch i, w => slot_status w.mem i = SLOT_DONE →
      Legible .response D.response_codec D.target D.hub_region i D.config w

/-! ### Passes -/

end Deployment

/-- The worlds between the visits of a scan. -/
theorem for_each_visits {visit : ℕ → Program bus Unit} {slots : List ℕ}
    (h : Runs (machine target) t (Deployment.for_each visit slots) w () w') :
    ∃ worlds : ℕ → World, worlds 0 = w ∧ worlds slots.length = w' ∧
      ∀ k (hk : k < slots.length), Runs (machine target) t (visit (slots.get ⟨k, hk⟩)) (worlds k)
        () (worlds (k + 1)) := by
  induction slots generalizing w with
  | nil =>
      obtain ⟨-, rfl⟩ := Runs.done_iff.mp h
      exact ⟨fun _ => w', rfl, rfl, fun k hk => absurd hk (Nat.not_lt_zero k)⟩
  | cons i rest ih =>
      obtain ⟨_, u, hfirst, hrest⟩ := Runs.bind_iff.mp h
      obtain ⟨worlds, rfl, hlast, hvisits⟩ := ih hrest
      refine ⟨fun k => k.casesOn w worlds, rfl, hlast, fun k hk => ?_⟩
      cases k with
      | zero => exact hfirst
      | succ k => exact hvisits k (Nat.lt_of_succ_lt_succ hk)

/-- `w'` comes out of a scan of the first slots that visits them in order, from the worlds `worlds`
on. -/
structure Scan (target : Target) (t : Thread) (visit : ℕ → Program bus Unit)
    (visited : ℕ) (worlds : ℕ → World) (w' : World) : Prop where
  visits : ∀ i < visited, Runs (machine target) t (visit i) (worlds i) () (worlds (i + 1))
  last : worlds visited = w'

/-- What every visit preserves holds after the scan. -/
theorem Scan.preserves {visit : ℕ → Program bus Unit} {visited : ℕ}
    {worlds : ℕ → World} {P : World → Prop} (h : Scan target t visit visited worlds w')
    (hstart : P (worlds 0)) (hvisit : ∀ i < visited, P (worlds i) → P (worlds (i + 1))) : P w' := by
  have hall : ∀ k ≤ visited, P (worlds k) := by
    intro k hk
    induction k with
    | zero => exact hstart
    | succ k ih => exact hvisit k hk (ih (Nat.le_of_lt hk))
  exact h.last ▸ hall visited le_rfl

theorem for_each_scan {visit : ℕ → Program bus Unit} {n : ℕ}
    (h : Runs (machine target) t (Deployment.for_each visit (List.range n)) w () w') :
    ∃ worlds, worlds 0 = w ∧ Scan target t visit n worlds w' := by
  obtain ⟨worlds, hfirst, hlast, hvisits⟩ := for_each_visits h
  rw [List.length_range] at hlast
  refine ⟨worlds, hfirst, fun i hi => ?_, hlast⟩
  have hvisit := hvisits i (by rwa [List.length_range])
  rwa [List.get_eq_getElem, List.getElem_range] at hvisit

namespace Deployment

variable {D : Deployment} {C : Operation → World → Prop} {ids : Set String} {answered : Set ℕ}

/-- A pass of either loop: it looks whether its side is running, waits, and scans. -/
theorem operated_scan {side : Side} {e : NamedEvent} {visit : ℕ → Program bus Unit} {n : ℕ}
    (h : D.Operated C w ids answered)
    (hrun : Runs (machine D.target) t (do
      if ← running side then
        let _ ← wait e
        for_each visit (List.range n)
      else pure ()) w () w') :
    ∃ visited ≤ n, ∃ worlds, D.Operated C (worlds 0) ids answered ∧
      Scan D.target t visit visited worlds w' := by
  obtain ⟨c, b, u, hx, hk⟩ := Runs.act_iff.mp hrun
  have hu := h.wait (.inl ⟨_, rfl⟩) hx
  cases b with
  | false =>
      obtain ⟨-, rfl⟩ := Runs.done_iff.mp hk
      exact ⟨0, Nat.zero_le n, fun _ => w', hu, fun i hi => absurd hi (Nat.not_lt_zero i), rfl⟩
  | true =>
      obtain ⟨c, r, v, hx, hk⟩ := Runs.act_iff.mp hk
      obtain ⟨worlds, rfl, hscan⟩ := for_each_scan hk
      exact ⟨n, le_rfl, worlds, hu.wait (.inr ⟨_, rfl⟩) hx, hscan⟩

/-- **A pass of the watcher is a session of visits**, if each of them satisfies the condition in the
world it starts in. -/
theorem Operated.watcher_pass (h : D.Operated C w ids answered)
    (hrun : Runs (machine D.target) t D.watcher_pass w () w') :
    ∃ visited ≤ D.hub_region.num_slots, ∃ worlds, Scan D.target t D.watch_slot visited worlds w' ∧
      ((∀ i < visited, C (.watch i) (worlds i)) → D.Operated C w' ids answered) := by
  obtain ⟨visited, hle, worlds, hstart, hscan⟩ := operated_scan h hrun
  refine ⟨visited, hle, worlds, hscan, fun hC => ?_⟩
  refine hscan.preserves (P := fun u => D.Operated C u ids answered) hstart fun i hi hu => ?_
  exact hu.watch (hi.trans_le hle) (hC i hi) (hscan.visits i hi)

/-- **A pass of a receive loop is one too.** -/
theorem Operated.receive_pass {l : ℕ} (h : D.Operated C w ids answered)
    (hrun : Runs (machine D.target) t (D.receive_pass l) w () w') :
    ∃ visited ≤ D.worker_region.num_slots, ∃ worlds,
      Scan D.target t (D.receive_slot l) visited worlds w' ∧
      ((∀ i < visited, C (.receive i) (worlds i)) → D.Operated C w' ids answered) := by
  obtain ⟨visited, hle, worlds, hstart, hscan⟩ := operated_scan h hrun
  refine ⟨visited, hle, worlds, hscan, fun hC => ?_⟩
  refine hscan.preserves (P := fun u => D.Operated C u ids answered) hstart fun i hi hu => ?_
  exact hu.receive (hi.trans_le hle) (hC i hi) (hscan.visits i hi)

end Deployment

/-! ### What an operation changes -/

/-- A bystander leaves everything alone that this file is about. -/
theorem exec_bystander {a : Action} {c : Choice} {r : Answer a} (ha : a.Bystander)
    (h : (machine target).exec t a c w = some (r, w')) : Leaves w.mem w w' := by
  obtain ⟨v, hv, rfl⟩ := exec_iff.mp h
  cases a with
  | shm_open n =>
      simp only [effect] at hv
      split
        at hv <;> obtain ⟨rfl, rfl⟩ :=
        Prod.mk.inj (Option.some.inj hv) <;> exact ⟨rfl, rfl, rfl, fun _ _ h => h⟩
  | wait e =>
      simp only [effect] at hv
      split at hv
      · obtain ⟨rfl, rfl⟩ := Prod.mk.inj (Option.some.inj hv)
        exact ⟨rfl, rfl, rfl, fun _ _ h => h⟩
      split at hv
      · cases hv
      · obtain ⟨rfl, rfl⟩ := Prod.mk.inj (Option.some.inj hv)
        exact ⟨rfl, rfl, rfl, fun _ _ h => h⟩
  | load _ | read _ _ | shm_read _ _ | running _ | signal _ =>
      obtain ⟨rfl, rfl⟩ := Prod.mk.inj (Option.some.inj hv)
      exact ⟨rfl, rfl, rfl, fun _ _ h => h⟩
  | panic => cases hv
  | _ => exact ha.elim

theorem runs_bystander {α : Type} {p : Program bus α} {v : α} (hp : p.Confined Action.Bystander)
    (h : Runs (machine target) t p w v w') : Leaves w.mem w w' := by
  refine Runs.keeps (I := fun u => Leaves w.mem w u) hp (fun ha hx hu => ?_) h
    ⟨rfl, rfl, rfl, fun _ _ h => h⟩
  have hstep := exec_bystander ha hx
  rw [hu.mem] at hstep
  exact ⟨hstep.mem, hstep.pending.trans hu.pending, hstep.invocations.trans hu.invocations,
    fun n s hs => hu.names n s (hstep.names n s hs)⟩

namespace Deployment

variable {D : Deployment}

/-- The claim of a slot does not change what can be read in it. -/
theorem legible_set_status {α : Type} {d : Direction} {codec : Codec α} {region : ShmRegion}
    {config : SlotBusConfig} {i v : ℕ} {log : List Entry} (htable : region.TableBelowHeap)
    (hi : i < region.num_slots) (h : Legible d codec target region i config w) :
    Legible d codec target region i config { w.set_status i v with log := log } := by
  have hfield : Disjoint (pointer_fields d i) (status_word i) :=
    disjoint_span (.inr (by cases d <;> simp only [Direction.fields] <;> omega))
  have hheap : Disjoint (heap region) (status_word i) :=
    disjoint_span (.inr (by have := slot_address_heap htable hi; omega))
  refine h.congr (AgreeOn.write ?_) (AgreeOn.write ?_) rfl rfl
  · rwa [encodeLE_length]
  · rwa [encodeLE_length]

/-- **A visit of the receive loop** that can read what it claims. -/
theorem receive_slot_completes {l i : ℕ} (htable : D.worker_region.TableBelowHeap)
    (hi : i < D.worker_region.num_slots) (hC : D.Completes (.receive i) w)
    (h : Runs (machine D.target) t (D.receive_slot l i) w () w') :
    Leaves w.mem w w' ∨ slot_status w.mem i = SLOT_READY ∧
      w'.mem = (w.set_status i SLOT_CLAIMED).mem ∧
      w'.pending = w.pending ∧ ∃ request, w'.invocations = w.invocations ++
        [⟨D.worker_of l, i, request⟩] := by
  unfold receive_slot at h
  obtain ⟨b, u, hcas, h⟩ := Runs.bind_iff.mp h
  rcases compare_exchange_runs hcas with ⟨rfl, hready, log, rfl⟩ | ⟨rfl, -, log, rfl⟩
  · rw [if_pos rfl] at h
    obtain ⟨result, u, hread, h⟩ := Runs.bind_iff.mp h
    cases result with
    | error e =>
        obtain ⟨v, hv⟩ :=
          read_request_ok_of_legible hread (legible_set_status htable hi (hC hready))
        cases hv
    | ok v =>
        have hleaves :=
          runs_bystander ((read_request_confined _).mono fun _ ha => ha.bystander) hread
        have hdone := (runs_of_effect fun _ => rfl).mp h
        obtain ⟨-, rfl⟩ := Runs.done_iff.mp hdone
        exact .inr ⟨hready, hleaves.mem, hleaves.pending, _, congrArg (· ++ _) hleaves.invocations⟩
  · obtain ⟨-, rfl⟩ := Runs.done_iff.mp h
    exact .inl ⟨rfl, rfl, rfl, fun _ _ h => h⟩

theorem read_req_id_runs {i : ℕ} {id : String}
    (h : Runs (machine target) t (read_req_id i) w id w') :
    id = slot_id w.mem i ∧ ∃ log, w' = { w with log := log } := by
  have hdone := (runs_of_effect (a := .read (slot_address i + 4) 36) fun _ => rfl).mp h
  obtain ⟨rfl, rfl⟩ := Runs.done_iff.mp hdone
  exact ⟨rfl, _, rfl⟩

/-- **A visit of the watcher** that can read the response. -/
theorem watch_slot_completes {i : ℕ} (hC : D.Completes (.watch i) w)
    (h : Runs (machine D.target) t (D.watch_slot i) w () w') :
    Leaves w.mem w w' ∨ slot_status w.mem i = SLOT_DONE ∧ w'.mem = (w.set_status i SLOT_FREE).mem ∧
      w'.pending = Function.update w.pending (slot_id w.mem i) none ∧
        w'.invocations = w.invocations := by
  unfold watch_slot at h
  obtain ⟨status, u, hload, h⟩ := Runs.bind_iff.mp h
  have hloaded := (runs_of_effect (a := .load i) fun _ => rfl).mp hload
  obtain ⟨rfl, rfl⟩ := Runs.done_iff.mp hloaded
  by_cases hne : slot_status w.mem i ≠ SLOT_DONE
  · rw [if_pos hne] at h
    obtain ⟨-, rfl⟩ := Runs.done_iff.mp h
    exact .inl ⟨rfl, rfl, rfl, fun _ _ h => h⟩
  have hdone := not_not.mp hne
  rw [if_neg hne] at h
  obtain ⟨id, u, hid, h⟩ := Runs.bind_iff.mp h
  obtain ⟨rfl, log, rfl⟩ := read_req_id_runs hid
  obtain ⟨result, v, hread, h⟩ := Runs.bind_iff.mp h
  have hv := runs_bystander ((read_response_confined _).mono fun _ ha => ha.bystander) hread
  obtain ⟨b, z, hcas, h⟩ := Runs.bind_iff.mp h
  -- nobody else has touched the slot, so the compare-exchange succeeds
  rcases compare_exchange_runs hcas with ⟨rfl, -, log', rfl⟩ | ⟨-, hfailed, -⟩
  on_goal 2 => exact absurd (hv.mem.symm ▸ hdone) hfailed
  rw [if_pos rfl] at h
  obtain ⟨_, y, hremove, h⟩ := Runs.bind_iff.mp h
  have hy := overflow_remove_runs hremove
  have hmem : y.mem = (w.set_status i SLOT_FREE).mem := hy.mem.trans (congrArg (write · _ _) hv.mem)
  cases result with
  | error e =>
      obtain ⟨x, hx⟩ :=
        read_response_ok_of_legible hread ((hC hdone).congr (.refl _ _) (.refl _ _) rfl rfl)
      cases hx
  | ok x =>
      obtain ⟨tx, x', hremoved, h⟩ := Runs.bind_iff.mp h
      have hremoved' := (runs_of_effect (a := .pending_remove _) fun _ => rfl).mp hremoved
      obtain ⟨rfl, rfl⟩ := Runs.done_iff.mp hremoved'
      have hpending : y.pending = w.pending := hy.pending.trans hv.pending
      have hinvocations : y.invocations = w.invocations := hy.invocations.trans hv.invocations
      have hkept : w'.mem = y.mem ∧ w'.pending = Function.update y.pending (slot_id w.mem i) none ∧
          w'.invocations = y.invocations := by
        split at h
        · have hsent := (runs_of_effect fun _ => rfl).mp h
          obtain ⟨-, rfl⟩ := Runs.done_iff.mp hsent
          exact ⟨rfl, rfl, rfl⟩
        · obtain ⟨-, rfl⟩ := Runs.done_iff.mp h
          exact ⟨rfl, rfl, rfl⟩
      exact .inr ⟨hdone, hkept.1.trans hmem, hkept.2.1.trans (by rw [hpending]),
        hkept.2.2.trans hinvocations⟩

/-- **A response** for which there is room, or that cannot be serialized. -/
theorem send_response_completes {l i : ℕ} {status : UInt16} {body : List UInt8}
    {content_type : String} {headers : List (String × String)} {refuses : Bool}
    {result : Except SlotBusError Unit} (hi : i < D.worker_region.num_slots)
    (hC : ∀ meta_bytes, D.response_codec.to_allocvec ⟨content_type, headers⟩ = .ok meta_bytes →
          (D.response_half i).Accepts refuses meta_bytes body
          (w.drop_option (w.overflow_regions (.worker l) i)))
    (h : Runs (host D.target refuses) t (D.send_response l i status body content_type headers).run
      w result w') :
    w' = w ∨ Publishes .response D.worker_region i SLOT_DONE
      (place_status i status w.mem) w w' := by
  cases hmeta : D.response_codec.to_allocvec ⟨content_type, headers⟩ with
  | error e =>
      rw [D.send_response_unserializable hmeta] at h
      exact .inl (Runs.done_iff.mp h).2
  | ok meta_bytes =>
      right
      unfold send_response at h
      simp only [hmeta] at h
      obtain ⟨_, u, hremove, h⟩ := runs_bind_lift h
      have hu := overflow_remove_runs (hremove.mono host_exec)
      have hremoved :=
        (runs_of_effect (a := .overflow_remove (.worker l) i) fun _ => rfl).mp
        (hremove.mono host_exec)
      obtain ⟨-, hremoved⟩ := Runs.done_iff.mp hremoved
      obtain ⟨written, v, hwrite, h⟩ := runs_bind_lift h
      have hnames : u.names = (w.drop_option (w.overflow_regions (.worker l) i)).names := by
        rw [hremoved]
        rfl
      -- there is room, so the error path is not taken
      obtain ⟨o, rfl⟩ := write_response_ok_of_accepts hi ((hC meta_bytes hmeta).congr hnames) hwrite
      obtain ⟨⟨placed, houtside, hmem⟩, hpending, hinvocations⟩ :=
        (write_response_ok (hwrite.mono host_exec)).2
      rw [hu.mem] at houtside
      have hrest := h.mono host_exec
      have hkept : w'.mem = v.mem ∧ w'.pending = v.pending ∧ w'.invocations = v.invocations := by
        cases o with
        | none =>
            have hsignal := (runs_of_effect fun _ => rfl).mp hrest
            obtain ⟨-, rfl⟩ := Runs.done_iff.mp hsignal
            exact ⟨rfl, rfl, rfl⟩
        | some r =>
            have hinsert := (runs_of_effect fun _ => rfl).mp hrest
            have hsignal := (runs_of_effect fun _ => rfl).mp hinsert
            obtain ⟨-, rfl⟩ := Runs.done_iff.mp hsignal
            obtain ⟨hmem, hpending, hinvocations, -⟩ := drop_option_leaves v (.worker l) i
            exact ⟨hmem, hpending, hinvocations⟩
      exact ⟨⟨placed, houtside, hkept.1.trans hmem⟩, hkept.2.1.trans (hpending.trans hu.pending),
        hkept.2.2.trans (hinvocations.trans hu.invocations)⟩

end Deployment

/-! ### Statuses and ids -/

/-- The addresses of the status and of the id of a slot. -/
def slot_key (i : ℕ) : Set ℕ := span (slot_address i) 40

theorem slot_key_subset_record (i : ℕ) : slot_key i ⊆ span (slot_address i) SLOT_META_SIZE :=
  span_subset le_rfl (by simp [SLOT_META_SIZE])

/-- Status and id of a slot are the same. -/
def SameSlot (mem mem' : Memory) (j : ℕ) : Prop :=
  slot_status mem' j = slot_status mem j ∧ slot_id mem' j = slot_id mem j

theorem sameSlot_of_agreeOn {mem mem' : Memory} {j : ℕ} (h : AgreeOn (slot_key j) mem mem') :
    SameSlot mem mem' j := by
  constructor
  · exact load_congr (h.symm.mono (span_subset le_rfl (by omega)))
  · exact congrArg decode_req_id (h.symm.read (span_subset (by omega) (by omega)))

theorem slot_id_set_status (mem : Memory) (i v j : ℕ) :
    slot_id (write mem (slot_address i) (encodeLE 4 v)) j = slot_id mem j := by
  have hdisjoint : Disjoint (record .request j) (span (slot_address i) (encodeLE 4 v).length) := by
    rw [encodeLE_length]
    exact record_disjoint_status .request j i
  have hid : span (slot_address j + 4) 36 ⊆ record .request j :=
    request_record_subset le_rfl (by omega)
  exact congrArg decode_req_id ((AgreeOn.write hdisjoint).read hid).symm

theorem slot_status_set_status (mem : Memory) {i v : ℕ} (hv : v < 256 ^ 4) :
    slot_status (write mem (slot_address i) (encodeLE 4 v)) i = v :=
  load_write_same.trans (Nat.mod_eq_of_lt hv)

theorem sameSlot_set_status (mem : Memory) {i v j : ℕ} (h : j ≠ i) :
    SameSlot mem (write mem (slot_address i) (encodeLE 4 v)) j := by
  refine ⟨(load_congr (AgreeOn.write ?_)).symm, slot_id_set_status mem i v j⟩
  rw [encodeLE_length]
  exact status_word_disjoint h

theorem SameSlot.trans {mem mem' mem'' : Memory} {j : ℕ} (h : SameSlot mem mem' j)
    (h' : SameSlot mem' mem'' j) :
    SameSlot mem mem'' j := ⟨h'.1.trans h.1, h'.2.trans h.2⟩

/-- The pointer fields of a slot and the heap are apart from the status and id of every slot. -/
theorem slot_key_subset {region : ShmRegion} (h : region.TableBelowHeap)
    (d : Direction) (i : ℕ) {j : ℕ} (hj : j < region.num_slots) :
    slot_key j ⊆ (pointer_fields d i ∪ heap region)ᶜ := by
  have h1 : i < j → slot_address i + 128 ≤ slot_address j := slot_address_lt
  have h2 : j < i → slot_address j + 128 ≤ slot_address i := slot_address_lt
  have h3 : i = j → slot_address i = slot_address j := fun h => h ▸ rfl
  have h4 := slot_address_heap h hj
  apply Set.subset_compl_iff_disjoint_right.mpr
  refine Set.disjoint_union_right.mpr ⟨?_, disjoint_span (.inl (by omega))⟩
  cases d <;> apply disjoint_span <;> simp only [Direction.fields] <;> omega

/-- A published request has its id in the record, and leaves the other slots alone. -/
theorem Publishes.request {region : ShmRegion} (hregion : region.TableBelowHeap) {i v : ℕ}
    (hi : i < region.num_slots) {req_id : String} {method : UInt8}
    (hfits : FitsIdField req_id) {m : Memory}
    (h : Publishes .request region i v (place_header i req_id method m) w w') :
    slot_id w'.mem i = req_id ∧ ∀ j < region.num_slots, j ≠ i → SameSlot m w'.mem j := by
  obtain ⟨placed, houtside, hmem⟩ := h.memory
  rw [hmem]
  constructor
  · rw [slot_id_set_status,
      (sameSlot_of_agreeOn (houtside.mono (slot_key_subset hregion .request i hi))).2]
    exact decode_req_id_place_header hfits i method m
  · intro j hj hne
    refine SameSlot.trans ?_ (sameSlot_set_status placed hne)
    refine sameSlot_of_agreeOn
      (AgreeOn.trans ?_ (houtside.mono (slot_key_subset hregion .request i hj)))
    exact (agreeOn_place_header i req_id method m).mono
      ((slot_key_subset_record j).trans (record_subset_compl hne))

/-- A published response changes no id, and no status but that of its slot. -/
theorem Publishes.response {region : ShmRegion} (hregion : region.TableBelowHeap)
    {i v : ℕ} {status : UInt16} {m : Memory}
    (h : Publishes .response region i v (place_status i status m) w w') :
    ∀ j < region.num_slots, slot_id w'.mem j = slot_id m j ∧ (j ≠ i → SameSlot m w'.mem j) := by
  obtain ⟨placed, houtside, hmem⟩ := h.memory
  rw [hmem]
  intro j hj
  have hsame : SameSlot m placed j := by
    refine sameSlot_of_agreeOn
      (AgreeOn.trans (AgreeOn.write ?_) (houtside.mono (slot_key_subset hregion .response i hj)))
    have h1 : i < j → slot_address i + 128 ≤ slot_address j := slot_address_lt
    have h2 : j < i → slot_address j + 128 ≤ slot_address i := slot_address_lt
    have h3 : i = j → slot_address i = slot_address j := fun h => h ▸ rfl
    rw [encodeLE_length]
    exact disjoint_span (by omega)
  exact ⟨(slot_id_set_status placed i v j).trans hsame.2, fun hne =>
    hsame.trans (sameSlot_set_status placed hne)⟩

theorem Publishes.status {d : Direction} {region : ShmRegion} {i v : ℕ}
    {m : Memory} (hv : v < 256 ^ 4) (h : Publishes d region i v m w w') :
    slot_status w'.mem i = v := by
  obtain ⟨placed, -, hmem⟩ := h.memory
  rw [hmem]
  exact slot_status_set_status placed hv

namespace Deployment

variable {D : Deployment} {ids : Set String} {answered : Set ℕ}

/-- **A dispatch call** whose request can be serialized: it changes nothing but the id of a free
slot, or it takes a free slot and registers its request. -/
theorem dispatch_completes {k : ℕ} {call : DispatchCall} {result : Except SlotBusError Unit}
    (htable : D.hub_region.TableBelowHeap) (hfits : FitsIdField call.req_id)
    (hC : D.Completes (.dispatch call) w)
    (h : Runs (machine D.target) t (D.dispatch k call).run w result w') :
    w'.invocations = w.invocations ∧
      ((w'.pending = w.pending ∧ ∀ j < D.num_slots, slot_status w'.mem j = slot_status w.mem j ∧
          (slot_status w.mem j ≠ SLOT_FREE → slot_id w'.mem j = slot_id w.mem j)) ∨
        ∃ i < D.num_slots, slot_status w.mem i = SLOT_FREE ∧ slot_status w'.mem i = SLOT_READY ∧
          slot_id w'.mem i = call.req_id ∧ (∀ j < D.num_slots, j ≠ i → SameSlot w.mem w'.mem j) ∧
          w'.pending = Function.update w.pending call.req_id (some k)) := by
  rcases D.dispatch_runs h with ⟨-, -, log, rfl⟩ | ⟨i, hfree, ⟨text, log, hmeta, -⟩ |
    ⟨meta_bytes, u, written, v, hmeta, hu, hwrite, ⟨e, rfl, -, rfl⟩ | ⟨o, rfl, -, hregisters⟩⟩⟩
  · exact ⟨rfl, .inl ⟨rfl, fun j hj => ⟨rfl, fun _ => rfl⟩⟩⟩
  · obtain ⟨meta_bytes, hok⟩ := hC (by rw [hfree]; exact Option.some_ne_none i)
    rw [hmeta] at hok
    cases hok
  · obtain ⟨hi, hstatus⟩ := first_free_spec hfree
    obtain ⟨hleaves, bytes, hleft, hbytes⟩ := leftBehind_of_write_request hi hu hwrite
    have hH : (D.request_half i).InTable := ⟨htable, hi⟩
    have hlength : bytes.length ≤ (D.request_half i).capacity := by
      rcases hbytes with ⟨-, rfl⟩ | ⟨hspills, rfl⟩
      · exact Nat.zero_le _
      · exact hspills.meta_fits
    refine ⟨hleaves.invocations, .inl ⟨hleaves.pending, fun j hj => ?_⟩⟩
    by_cases hji : j = i
    · rw [hji]
      exact ⟨hleft.free.trans hstatus.symm, fun hne => absurd hstatus hne⟩
    · have hrecord := (hleft.records hH hlength hj hji).mono (slot_key_subset_record j)
      obtain ⟨hsame, hid⟩ := sameSlot_of_agreeOn hrecord
      exact ⟨hsame, fun _ => hid⟩
  · obtain ⟨hi, hstatus⟩ := first_free_spec hfree
    have hpublishes := write_request_ok hi hwrite
    rw [hu.mem] at hpublishes
    obtain ⟨hid, hothers⟩ := hpublishes.request htable hi hfits
    rw [hregisters.mem, hregisters.pending, hregisters.invocations, hpublishes.pending,
      hpublishes.invocations,
      hu.pending, hu.invocations]
    refine ⟨rfl, .inr ⟨i, hi, hstatus, hpublishes.status (by decide), hid, fun j hj hne => ?_, rfl⟩⟩
    exact (sameSlot_set_status w.mem hne).trans (hothers j hj hne)

/-! ### The correspondence -/

/-- The slots in use. -/
def InUse (D : Deployment) (mem : Memory) : Set ℕ :=
  {i | i < D.num_slots ∧ slot_status mem i ≠ SLOT_FREE}

/-- Slots that stay in use, or free, with the same ids. -/
theorem OneReceiverEach.keep (h : D.OneReceiverEach w) (hpending : w'.pending = w.pending)
    (hslots : ∀ j < D.num_slots,
    (slot_status w'.mem j = SLOT_FREE ↔ slot_status w.mem j = SLOT_FREE) ∧
      (slot_status w.mem j ≠ SLOT_FREE → slot_id w'.mem j = slot_id w.mem j)) :
        D.OneReceiverEach w' := by
  have hinUse : D.InUse w'.mem = D.InUse w.mem := by
    ext j
    exact and_congr_right fun hj => not_congr (hslots j hj).1
  show Set.BijOn (slot_id w'.mem) (D.InUse w'.mem) {id | w'.pending id ≠ none}
  rw [hinUse, hpending]
  exact h.congr fun j hj => ((hslots j hj.1).2 hj.2).symm

/-- A free slot that comes into use, and its receiver. -/
theorem OneReceiverEach.add (h : D.OneReceiverEach w) {i k : ℕ} {id : String} (hi : i < D.num_slots)
    (hfree : slot_status w.mem i = SLOT_FREE) (hused : slot_status w'.mem i ≠ SLOT_FREE)
    (hid : slot_id w'.mem i = id) (hnew : w.pending id = none) (hothers : ∀ j < D.num_slots, j ≠ i →
      SameSlot w.mem w'.mem j)
    (hpending : w'.pending = Function.update w.pending id (some k)) : D.OneReceiverEach w' := by
  have hinUse : D.InUse w'.mem = insert i (D.InUse w.mem) := by
    ext j
    by_cases hji : j = i
    · subst hji
      exact iff_of_true ⟨hi, hused⟩ (Set.mem_insert j _)
    · rw [Set.mem_insert_iff, or_iff_right hji]
      exact and_congr_right fun hj => by rw [(hothers j hj hji).1]
  have hkeys :
      {id | w'.pending id ≠ none} = insert (slot_id w'.mem i) {id | w.pending id ≠ none} := by
    ext other
    rw [hid, Set.mem_insert_iff, Set.mem_ofPred_eq, Set.mem_ofPred_eq, hpending]
    by_cases hother : other = id
    · simp [hother]
    · rw [Function.update_of_ne hother, or_iff_right hother]
  have hold : Set.BijOn (slot_id w'.mem) (D.InUse w.mem) {id | w.pending id ≠ none} :=
    Set.BijOn.congr h fun j hj => (hothers j hj.1 fun hji => hj.2 (hji ▸ hfree)).2.symm
  show Set.BijOn (slot_id w'.mem) (D.InUse w'.mem) {id | w'.pending id ≠ none}
  rw [hinUse, hkeys]
  exact hold.insert (by rw [hid]; exact fun hkey => hkey hnew)

/-- A slot in use that is given back, and its receiver. -/
theorem OneReceiverEach.remove (h : D.OneReceiverEach w) {i : ℕ} (hi : i < D.num_slots)
    (hused : slot_status w.mem i ≠ SLOT_FREE) (hmem : w'.mem = (w.set_status i SLOT_FREE).mem)
    (hpending : w'.pending = Function.update w.pending (slot_id w.mem i) none) :
    D.OneReceiverEach w' := by
  have hfree : slot_status w'.mem i = SLOT_FREE := by
    rw [hmem]
    exact slot_status_set_status w.mem (by decide)
  have hids : ∀ j, slot_id w'.mem j = slot_id w.mem j := fun j => by
    rw [hmem]
    exact slot_id_set_status w.mem i SLOT_FREE j
  have hinUse : D.InUse w'.mem = D.InUse w.mem \ {i} := by
    ext j
    by_cases hji : j = i
    · subst hji
      exact iff_of_false (fun hj => hj.2 hfree) fun hj => hj.2 rfl
    · have hsame : slot_status w'.mem j = slot_status w.mem j := by
        rw [hmem]
        exact (sameSlot_set_status w.mem hji).1
      simp only [InUse, Set.mem_ofPred_eq, hsame, Set.mem_sdiff, Set.mem_singleton_iff, hji,
        not_false_eq_true, and_true]
  have hkeys : {id | w'.pending id ≠ none} = {id | w.pending id ≠ none} \ {slot_id w.mem i} := by
    ext other
    rw [Set.mem_sdiff, Set.mem_singleton_iff, Set.mem_ofPred_eq, Set.mem_ofPred_eq, hpending]
    by_cases hother : other = slot_id w.mem i
    · simp [hother]
    · rw [Function.update_of_ne hother, and_iff_left hother]
  show Set.BijOn (slot_id w'.mem) (D.InUse w'.mem) {id | w'.pending id ≠ none}
  rw [hinUse, hkeys]
  exact (Set.BijOn.sdiff_singleton h ⟨hi, hused⟩).congr fun j _ => (hids j).symm

/-! ### Every session -/

/-- What holds between two operations. -/
structure Session (D : Deployment) (w : World) (ids : Set String) (answered : Set ℕ) : Prop where
  one_each : D.OneReceiverEach w
  known : ∀ id, w.pending id ≠ none → id ∈ ids
  /-- The slot of an invocation that has not been answered. -/
  held : ∀ j inv, w.invocations[j]? = some inv → j ∉ answered →
    inv.slot < D.num_slots ∧ slot_status w.mem inv.slot = SLOT_CLAIMED
  apart : ∀ j j' inv inv', w.invocations[j]? = some inv →
    w.invocations[j']? = some inv' → j ∉ answered →
    j' ∉ answered → inv.slot = inv'.slot → j = j'

/-- An operation without effect on the slots, the pending map and the invocations. -/
theorem Session.of_leaves (h : D.Session w ids answered) (hw : Leaves w.mem w w') :
    D.Session w' ids answered := by
  obtain ⟨hmem, hpending, hinvocations, -⟩ := hw
  refine ⟨h.one_each.keep hpending fun j _ => ?_, ?_, ?_, ?_⟩
  · rw [hmem]
    exact ⟨Iff.rfl, fun _ => rfl⟩
  · rw [hpending]
    exact h.known
  · rw [hmem, hinvocations]
    exact h.held
  · rw [hinvocations]
    exact h.apart

/-- The invocations of unanswered requests when the slots that hold them keep their status. -/
theorem Session.held_of_same (h : D.Session w ids answered)
    (hinvocations : w'.invocations = w.invocations)
    (hsame : ∀ j < D.num_slots, slot_status w.mem j = SLOT_CLAIMED →
      slot_status w'.mem j = SLOT_CLAIMED) :
    ∀ j inv, w'.invocations[j]? = some inv → j ∉ answered →
      inv.slot < D.num_slots ∧ slot_status w'.mem inv.slot = SLOT_CLAIMED := by
  intro j inv hinv hj
  rw [hinvocations] at hinv
  obtain ⟨hlt, hstatus⟩ := h.held j inv hinv hj
  exact ⟨hlt, hsame _ hlt hstatus⟩

theorem Session.dispatch {k : ℕ} {call : DispatchCall} {result : Except SlotBusError Unit}
    (h : D.Session w ids answered) (htable : D.hub_region.TableBelowHeap)
    (hfits : FitsIdField call.req_id) (hnew : call.req_id ∉ ids)
    (hC : D.Completes (.dispatch call) w)
    (hrun : Runs (machine D.target) t (D.dispatch k call).run w result w') :
    D.Session w' (insert call.req_id ids) answered := by
  have hpending : w.pending call.req_id = none := by
    by_contra hkey
    exact hnew (h.known _ hkey)
  obtain ⟨hinvocations, ⟨hsame, hslots⟩ | ⟨i, hi, hfree, hready, hid, hothers, hadded⟩⟩ :=
    dispatch_completes htable hfits hC hrun
  · refine ⟨h.one_each.keep hsame fun j hj => ?_, ?_, ?_, ?_⟩
    · rw [(hslots j hj).1]
      exact ⟨Iff.rfl, (hslots j hj).2⟩
    · intro id hkey
      rw [hsame] at hkey
      exact Set.mem_insert_of_mem _ (h.known id hkey)
    · exact h.held_of_same hinvocations fun j hj hstatus => (hslots j hj).1.trans hstatus
    · rw [hinvocations]
      exact h.apart
  · have hused : slot_status w'.mem i ≠ SLOT_FREE := by
      rw [hready]
      decide
    refine ⟨h.one_each.add hi hfree hused hid hpending hothers hadded, ?_, ?_, ?_⟩
    · intro id hkey
      rw [hadded] at hkey
      by_cases heq : id = call.req_id
      · exact heq ▸ Set.mem_insert _ _
      · rw [Function.update_of_ne heq] at hkey
        exact Set.mem_insert_of_mem _ (h.known id hkey)
    · refine h.held_of_same hinvocations fun j hj hstatus => ?_
      have hji : j ≠ i := fun hji => by
        rw [hji, hfree] at hstatus
        exact absurd hstatus (by decide)
      exact (hothers j hj hji).1.trans hstatus
    · rw [hinvocations]
      exact h.apart

theorem Session.receive {l i : ℕ} (h : D.Session w ids answered) (hsound : D.Sound)
    (hslot : i < D.worker_region.num_slots) (hC : D.Completes (.receive i) w)
    (hrun : Runs (machine D.target) t (D.receive_slot l i) w () w') :
    D.Session w' ids answered := by
  have hi : i < D.num_slots := hsound.num_slots_eq ▸ hslot
  rcases receive_slot_completes hsound.worker_table hslot hC hrun with hleaves | ⟨hready, hmem,
    hpending, request, hinvocations⟩
  · exact h.of_leaves hleaves
  have hclaimed : slot_status w'.mem i = SLOT_CLAIMED := by
    rw [hmem]
    exact slot_status_set_status w.mem (by decide)
  have hothers : ∀ {j}, j ≠ i → SameSlot w.mem w'.mem j := fun hne => by
    rw [hmem]
    exact sameSlot_set_status w.mem hne
  -- a slot that an earlier invocation holds is not READY
  have hne : ∀ j inv, w.invocations[j]? = some inv → j ∉ answered → inv.slot ≠ i := by
    intro j inv hinv hj heq
    have hstatus := (h.held j inv hinv hj).2
    rw [heq, hready] at hstatus
    exact absurd hstatus (by decide)
  have hcases : ∀ {j inv}, w'.invocations[j]? = some inv → w.invocations[j]? = some inv ∨
      j = w.invocations.length ∧ inv = ⟨D.worker_of l, i, request⟩ := by
    intro j inv hinv
    rw [hinvocations, List.getElem?_append] at hinv
    split at hinv
    · exact .inl hinv
    · obtain ⟨hlt, heq⟩ := List.getElem?_eq_some_iff.mp hinv
      simp only [List.length_singleton] at hlt
      exact .inr ⟨by omega, by rw [← heq, List.getElem_singleton]⟩
  refine ⟨h.one_each.keep hpending fun j hj => ?_, ?_, fun j inv hinv hj => ?_,
    fun j j' inv inv' hinv hinv' hj hj' heq => ?_⟩
  · by_cases hji : j = i
    · rw [hji, hclaimed, hready, hmem]
      exact ⟨by decide, fun _ => slot_id_set_status w.mem i SLOT_CLAIMED i⟩
    · rw [(hothers hji).1]
      exact ⟨Iff.rfl, fun _ => (hothers hji).2⟩
  · rw [hpending]
    exact h.known
  · rcases hcases hinv with hold | ⟨-, rfl⟩
    · obtain ⟨hlt, hstatus⟩ := h.held j inv hold hj
      exact ⟨hlt, (hothers (hne j inv hold hj)).1.trans hstatus⟩
    · exact ⟨hi, hclaimed⟩
  · rcases hcases hinv with hold | ⟨rfl, rfl⟩ <;> rcases hcases hinv' with hold' | ⟨rfl, rfl⟩
    · exact h.apart j j' inv inv' hold hold' hj hj' heq
    · exact absurd heq (hne j inv hold hj)
    · exact absurd heq.symm (hne j' inv' hold' hj')
    · rfl

theorem Session.respond {inv : Invocation} {reply : Reply} {refuses : Bool}
    {result : Except SlotBusError Unit} (h : D.Session w ids answered) (hsound : D.Sound)
    (hinv : w.invocations[reply.invocation]? = some inv) (honce : reply.invocation ∉ answered)
    (hC : D.Completes (.respond reply refuses) w) (hrun : Runs (host D.target refuses) t
          (D.send_response inv.worker inv.slot reply.status reply.body reply.content_type
            reply.headers).run w result w') :
    D.Session w' ids (insert reply.invocation answered) := by
  have hopen : ∀ {j}, j ∉ insert reply.invocation answered → j ≠ reply.invocation ∧ j ∉ answered :=
    fun hj =>
    ⟨fun heq => hj (Set.mem_insert_iff.mpr (.inl heq)), fun hmem =>
      hj (Set.mem_insert_of_mem _ hmem)⟩
  obtain ⟨hlt, hclaimed⟩ := h.held _ inv hinv honce
  have hslot : inv.slot < D.worker_region.num_slots := hsound.num_slots_eq.symm ▸ hlt
  rcases send_response_completes hslot (fun meta_bytes => hC inv meta_bytes hinv)
    hrun with rfl | hpublishes
  · exact ⟨h.one_each, h.known, fun j inv hinv hj => h.held j inv hinv (hopen hj).2,
      fun j j' inv inv' hinv hinv' hj hj' =>
        h.apart j j' inv inv' hinv hinv' (hopen hj).2 (hopen hj').2⟩
  have hdone := hpublishes.status (by decide)
  have hslots := hpublishes.response hsound.worker_table
  rw [hsound.num_slots_eq] at hslots
  refine ⟨h.one_each.keep hpublishes.pending fun j hj => ⟨?_, fun _ => (hslots j hj).1⟩, ?_,
    fun j other hother hj => ?_, ?_⟩
  · by_cases hji : j = inv.slot
    · rw [hji, hdone, hclaimed]
      decide
    · rw [((hslots j hj).2 hji).1]
  · rw [hpublishes.pending]
    exact h.known
  · rw [hpublishes.invocations] at hother
    obtain ⟨hne, hj⟩ := hopen hj
    obtain ⟨hlt', hstatus⟩ := h.held j other hother hj
    have hapart : other.slot ≠ inv.slot :=
      fun heq => hne (h.apart j _ other inv hother hinv hj honce heq)
    exact ⟨hlt', ((hslots _ hlt').2 hapart).1.trans hstatus⟩
  · rw [hpublishes.invocations]
    exact fun j j' inv inv' hinv hinv' hj hj' =>
      h.apart j j' inv inv' hinv hinv' (hopen hj).2 (hopen hj').2

theorem Session.watch {i : ℕ} (h : D.Session w ids answered) (hi : i < D.num_slots)
    (hC : D.Completes (.watch i) w) (hrun : Runs (machine D.target) t (D.watch_slot i) w () w') :
    D.Session w' ids answered := by
  rcases watch_slot_completes hC hrun with hleaves | ⟨hdone, hmem, hpending, hinvocations⟩
  · exact h.of_leaves hleaves
  have hused : slot_status w.mem i ≠ SLOT_FREE := by
    rw [hdone]
    decide
  refine ⟨h.one_each.remove hi hused hmem hpending, fun id hkey => ?_, ?_, ?_⟩
  · rw [hpending] at hkey
    by_cases heq : id = slot_id w.mem i
    · rw [heq, Function.update_self] at hkey
      exact absurd rfl hkey
    · rw [Function.update_of_ne heq] at hkey
      exact h.known id hkey
  · refine h.held_of_same hinvocations fun j hj hstatus => ?_
    have hji : j ≠ i := fun hji => by
      rw [hji, hdone] at hstatus
      exact absurd hstatus (by decide)
    rw [hmem]
    exact (sameSlot_set_status w.mem hji).1.trans hstatus
  · rw [hinvocations]
    exact h.apart

theorem Session.start {mem : Memory} (hsetup : D.SetUp mem) (names : String → Option ℕ)
    (segments : ℕ → Segment) (next_segment : ℕ) :
    D.Session (.start mem names segments next_segment) ∅ ∅ := by
  obtain ⟨raw, old, hinit⟩ := hsetup.created
  have hunused : D.InUse mem = ∅ :=
    Set.eq_empty_of_forall_notMem fun i hi => hi.2 (init_control_zero hinit hi.1)
  refine ⟨?_, fun id hkey => absurd rfl hkey, nofun, nofun⟩
  have hkeys : {id | (World.start mem names segments next_segment).pending id ≠ none} = ∅ :=
    Set.eq_empty_of_forall_notMem fun id hid => hid rfl
  show Set.BijOn (slot_id mem) (D.InUse mem) _
  rw [hunused, hkeys]
  exact Set.bijOn_empty _

theorem Operated.sound {C : Operation → World → Prop} (h : D.Operated C w ids answered) :
    D.Sound := by
  induction h with
  | start hsetup => exact hsetup.sound
  | _ => assumption

end Deployment

end SlotBus
