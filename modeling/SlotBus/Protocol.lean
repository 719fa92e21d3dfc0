import SlotBus.Ownership
import SlotBus.Records

/-!
# The slot protocol

What each thread may do in which state of the bus, and what that guarantees.  `Legal` lists the
actions of the four kinds of threads with the condition under which each of them is performed;
whoever writes a half of a slot is its `Tenant`, and there is at most one.

Nothing here limits the requests: they may be of any size, the heap may be too large for the offset
fields, and the ids may be repeated.  The parts of the invariant that need more say so.

* `Deployment.Legal` — the legal actions;
* `Deployment.Invariant` — the ledger agrees with the status words, the halves hold what their
  owners placed, and the receivers that are resolved got the answer to their own request.
-/

namespace SlotBus

open ByteMemory AtomicProgram

/-! ### What the bus is given -/

/-- The request ids of the calls so far are pairwise distinct and fit into the id field. -/
structure World.ProperIds (w : World) : Prop where
  fits : ∀ (k : ℕ) call, w.calls[k]? = some call → FitsIdField call.req_id
  distinct : ∀ (j k : ℕ) c d, w.calls[j]? = some c → w.calls[k]? = some d →
    c.req_id = d.req_id → j = k

/-- The calls, invocations and replies of `w` are still there in `w'`. -/
structure World.Extends (w w' : World) : Prop where
  calls : ∀ (k : ℕ) call, w.calls[k]? = some call → w'.calls[k]? = some call
  invocations : ∀ (n : ℕ) inv, w.invocations[n]? = some inv → w'.invocations[n]? = some inv
  replies : ∀ (c : ℕ) reply, w.replies[c]? = some reply → w'.replies[c]? = some reply
  received : ∀ n k, received n w.log = some k → received n w'.log = some k

theorem World.Extends.refl (w : World) : w.Extends w :=
  ⟨fun _ _ h => h, fun _ _ h => h, fun _ _ h => h, fun _ _ h => h⟩

theorem World.Extends.trans {u v w : World} (h : u.Extends v) (h' : v.Extends w) : u.Extends w :=
  ⟨fun k c hk => h'.calls k c (h.calls k c hk), fun n i hn =>
    h'.invocations n i (h.invocations n i hn),
    fun c r hc => h'.replies c r (h.replies c r hc), fun n k hn =>
      h'.received n k (h.received n k hn)⟩

theorem World.Extends.properIds {w w' : World} (h : w.Extends w') (hids : w'.ProperIds) :
    w.ProperIds where
  fits k call hk := hids.fits k call (h.calls k call hk)
  distinct j k c d hj hk := hids.distinct j k c d (h.calls j c hj) (h.calls k d hk)

/-- The watcher gave back a slot with the answer `c` to the request of dispatch call `k`. -/
def World.Collected (w : World) (k c : ℕ) : Prop :=
  ∃ n reply, collected w.log = some (n, k, c) ∧ w.replies[c]? = some reply ∧ reply.invocation = n ∧
    received n w.log = some k

/-- A thread that has been launched: the threads of calls and replies are numbered in the order of
their launches. -/
def World.Knows (w : World) : Thread → Prop
  | .dispatch k => k < w.calls.length
  | .respond c => c < w.replies.length
  | .watcher | .receive _ => True

theorem World.Knows.mono {w w' : World} {t : Thread} (h : w.Knows t)
    (hcalls : w.calls.length ≤ w'.calls.length) (hreplies : w.replies.length ≤ w'.replies.length) :
    w'.Knows t := by
  cases t with
  | dispatch k => exact lt_of_lt_of_le h hcalls
  | respond c => exact lt_of_lt_of_le h hreplies
  | _ => trivial

namespace Deployment

variable (D : Deployment)

/-- The handle through which a direction is written. -/
def writer : Direction → ShmRegion
  | .request => D.hub_region
  | .response => D.worker_region

/-- The handle through which a direction is read. -/
def reader : Direction → ShmRegion
  | .request => D.worker_region
  | .response => D.hub_region

/-- A half of slot `i`, as one of the handles sees it. -/
abbrev half (region : ShmRegion) (d : Direction) (i : ℕ) : SlotHalf :=
  ⟨d, D.target, region, D.config, i⟩

/-- The number of slots. -/
abbrev num_slots : ℕ := D.hub_region.num_slots

/-- Both handles agree on the slot table. -/
structure Sound : Prop where
  hub_table : D.hub_region.TableBelowHeap
  worker_table : D.worker_region.TableBelowHeap
  num_slots_eq : D.worker_region.num_slots = D.num_slots

/-- Both handles agree on the heap, and its offsets fit into the record. -/
structure Faithful : Prop where
  heap_offset_eq : D.worker_region.heap_offset = D.hub_region.heap_offset
  heap_size_eq : D.worker_region.heap_size = D.hub_region.heap_size
  heap_lt : D.hub_region.heap_size < 2 ^ 32

/-- The overflow names of different slots are different. -/
def Tracked : Prop := D.target = .macos → D.num_slots ≤ 256

/-- Payloads are read back as they were written. -/
structure Precise : Prop extends D.Faithful where
  tracked : D.Tracked

/-- A call whose lengths fit into the record. -/
structure CallFits (call : DispatchCall) : Prop where
  metadata : ∀ bytes, D.request_codec.to_allocvec call.meta_ = .ok bytes → bytes.length < 2 ^ 16
  body : call.body.length < 2 ^ 32

/-- A reply whose lengths fit into the record. -/
structure ReplyFits (reply : Reply) : Prop where
  metadata : ∀ bytes, D.response_codec.to_allocvec ⟨reply.content_type, reply.headers⟩ = .ok bytes →
    bytes.length < 2 ^ 16
  body : reply.body.length < 2 ^ 32

/-- The request is the one of the call, with its metadata serialized and deserialized. -/
def Carries (call : DispatchCall) (request : Request) : Prop :=
  ∃ bytes m, D.request_codec.to_allocvec call.meta_ = .ok bytes ∧
    D.request_codec.from_bytes bytes = .ok m ∧
    request = Request.build call.req_id (method_to_u8 call.method) m call.body

/-- The response is the one of the reply, with its metadata serialized and deserialized. -/
def Conveys (reply : Reply) (response : Response) : Prop :=
  ∃ bytes m, D.response_codec.to_allocvec ⟨reply.content_type, reply.headers⟩ = .ok bytes ∧
    D.response_codec.from_bytes bytes = .ok m ∧
    response = ⟨reply.status, reply.body, m.content_type, m.headers⟩

variable (w : World)

/-- A request handed to a handler is that of dispatch call `k`. -/
def Handed (k : ℕ) (request : Request) : Prop :=
  ∃ call, w.calls[k]? = some call ∧
    (D.Precise → D.CallFits call → FitsIdField call.req_id → D.Carries call request)

/-- A response is that of reply `c`. -/
def Answers (c : ℕ) (response : Response) : Prop :=
  ∃ reply, w.replies[c]? = some reply ∧ (D.Precise → D.ReplyFits reply → D.Conveys reply response)

/-- Dispatch call `k` has placed its request in slot `i`. -/
def RequestIn (i k : ℕ) : Prop :=
  ∃ call meta_bytes P m, w.calls[k]? = some call ∧
    D.request_codec.to_allocvec call.meta_ = .ok meta_bytes ∧
    (D.half D.hub_region .request i).Filled D.Faithful D.Tracked False
    (.dispatch k) meta_bytes call.body P
      (place_header i call.req_id (method_to_u8 call.method) m) w

/-- Reply `c` has placed its response in slot `i`. -/
def ResponseIn (i c : ℕ) : Prop :=
  ∃ reply meta_bytes P m, w.replies[c]? = some reply ∧
    D.response_codec.to_allocvec ⟨reply.content_type, reply.headers⟩ = .ok meta_bytes ∧
    (D.half D.worker_region .response i).Filled D.Faithful D.Tracked False (.respond c)
      meta_bytes reply.body P
      (place_status i reply.status m) w

/-! ### Legal actions -/

/-- The thread that may write a half. -/
inductive Tenant : Thread → Direction → ℕ → Prop where
  | request {k i : ℕ} (h : owner w.log i = .writing k) : Tenant (.dispatch k) .request i
  | response {n k c i : ℕ} (h : owner w.log i = .handling n k) (hc : w.ledger.Sole c n) :
      Tenant (.respond c) .response i

end Deployment

/-- The actions that concern no slot. -/
def Action.Bystander : Action → Prop
  | .load _ | .read _ _ | .shm_open _ | .shm_read _ _ | .running _ | .signal _ | .wait _ | .panic =>
      True
  | _ => False

namespace Deployment

variable (D : Deployment) (w : World)

/-- The actions a thread may perform, and when. -/
inductive Legal : Thread → Action → Prop where
  | bystander {t : Thread} {a : Action} (ha : a.Bystander) : Legal t a
  | own {t : Thread} {a : Action} {d : Direction} {i : ℕ} (ht : Tenant w t d i)
      (ha : (D.half (D.writer d) d i).Own t w.log a) : Legal t a
  | claim {k i : ℕ} (hi : i < D.num_slots) (hidle : phase w.log (.dispatch k) = .idle) :
      Legal (.dispatch k) (.compare_exchange i SLOT_FREE SLOT_WRITING)
  | drop_request {k i : ℕ} (h : owner w.log i = .writing k) :
      Legal (.dispatch k) (.overflow_remove .hub i)
  | publish {k i : ℕ} (h : owner w.log i = .writing k) (hP : D.RequestIn w i k) :
      Legal (.dispatch k) (.store i SLOT_READY)
  | withdraw {k i : ℕ} (h : owner w.log i = .writing k) : Legal (.dispatch k) (.store i SLOT_FREE)
  | keep_request {k i : ℕ} {r : OverflowRegion} (h : phase w.log (.dispatch k) = .published i)
      (hr : latest_region (history (.dispatch k) w.log) = some r) :
      Legal (.dispatch k) (.overflow_insert .hub i r)
  | register {k i : ℕ} {call : DispatchCall} (hcall : w.calls[k]? = some call)
      (h : phase w.log (.dispatch k) = .published i ∨ phase w.log (.dispatch k) = .kept i) :
      Legal (.dispatch k) (.pending_insert call.req_id k)
  | take {l i : ℕ} (hi : i < D.num_slots) (hidle : ∀ j, phase w.log (.receive l) ≠ .holding j) :
      Legal (.receive l) (.compare_exchange i SLOT_READY SLOT_CLAIMED)
  | invoke {l i k : ℕ} {request : Request} (h : owner w.log i = .reading l k)
      (hrequest : D.Handed w k request) : Legal (.receive l) (.handle (D.worker_of l) i request)
  | reject {l i k : ℕ} (h : owner w.log i = .reading l k) : Legal (.receive l) (.store i SLOT_FREE)
  | drop_response {c i : ℕ} {wk : ℕ} (h : Tenant w (.respond c) .response i) :
      Legal (.respond c) (.overflow_remove (.worker wk) i)
  | answer {c i : ℕ} (h : Tenant w (.respond c) .response i) (hP : D.ResponseIn w i c) :
      Legal (.respond c) (.store i SLOT_DONE)
  | give_up {c i : ℕ} (h : Tenant w (.respond c) .response i) :
      Legal (.respond c) (.store i SLOT_FREE)
  | keep_response {c i wk : ℕ} {r : OverflowRegion} (h : phase w.log (.respond c) = .published i)
      (hr : latest_region (history (.respond c) w.log) = some r) :
      Legal (.respond c) (.overflow_insert (.worker wk) i r)
  | collect {i : ℕ} (hi : i < D.num_slots) :
      Legal .watcher (.compare_exchange i SLOT_DONE SLOT_FREE)
  | drop_collected {i : ℕ} (h : phase w.log .watcher = .holding i) :
      Legal .watcher (.overflow_remove .hub i)
  | look_up {k c : ℕ} {id : String} (h : w.Collected k c)
      (hid : ∀ call, w.calls[k]? = some call → FitsIdField call.req_id → id = call.req_id) :
      Legal .watcher (.pending_remove id)
  | deliver {k c tx : ℕ} {response : Response} (h : w.Collected k c) (htx : w.ProperIds → tx = k)
      (hresponse : D.Answers w c response) : Legal .watcher (.send tx response)
  | finish {t : Thread} {result : Except SlotBusError Unit} : Legal t (.finish result)

/-- What the surrounding programs may start: a handler answers again only if every earlier attempt
failed to serialize. -/
def Admits (w : World) : Launch → Prop
  | .respond reply => ∀ (c : ℕ) earlier, w.replies[c]? = some earlier →
      earlier.invocation = reply.invocation → phase w.log (.respond c) = .failed
  | .dispatch _ | .watcher | .receive _ => True

/-- Every request's metadata can be serialized. -/
def Serializes : Prop := ∀ m, ∃ bytes, D.request_codec.to_allocvec m = .ok bytes

/-- What a thread leaves behind: a receive loop holds no slot between two passes, and a dispatch
call that is over holds none, unless it failed to serialize. -/
def Idle (t : Thread) (w : World) : Prop :=
  match t with
  | .dispatch _ => D.Serializes → ∀ i, phase w.log t ≠ .holding i
  | .receive _ => ∀ i, phase w.log t ≠ .holding i
  | .watcher | .respond _ => True

/-! ### The invariant -/

/-- **The invariant of the protocol.** -/
structure Invariant : Prop where
  consistent : w.Consistent
  ledger : w.ledger.Invariant
  status : ∀ i < D.num_slots, slot_status w.mem i = (owner w.log i).status
  range : ∀ i, owner w.log i ≠ .free → i < D.num_slots
  known : ∀ e ∈ w.log, w.Knows e.thread
  replied : ∀ (c : ℕ) reply, w.replies[c]? = some reply → reply.invocation < w.invocations.length
  request : ∀ i k, (owner w.log i).call = some k → owner w.log i ≠ .writing k → D.RequestIn w i k
  response : ∀ i n k c, owner w.log i = .done n k c → D.ResponseIn w i c
  handed : ∀ i n k, (owner w.log i = .handling n k ∨ ∃ c, owner w.log i = .done n k c) →
    received n w.log = some k
  invoked : ∀ n k, received n w.log = some k →
    ∃ inv, w.invocations[n]? = some inv ∧ D.Handed w k inv.request
  pending : ∀ id k, w.pending id = some k → ∃ call, w.calls[k]? = some call ∧ call.req_id = id
  resolved : ∀ k response, w.resolved k = some response → w.ProperIds →
    ∃ n c reply, w.replies[c]? = some reply ∧ reply.invocation = n ∧ received n w.log = some k ∧
      D.Answers w c response

end Deployment
end SlotBus
