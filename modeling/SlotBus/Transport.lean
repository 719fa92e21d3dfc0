import SlotBus.Region

/-!
# Hub and worker

`SlotBus::dispatch`, the response watcher, the receive loop and `SlotWorker::send_response` as
programs of atomic actions, and the system in which any number of them are interleaved.

The watcher and the receive loops are given one pass of their endless loop at a time: the system
launches the next pass when the last one is over.
-/

namespace SlotBus

open ByteMemory AtomicProgram AtomicProgram.Program

/-- What a hub and its workers are built from: the configuration, the two sides' handles to the
control region, the `SlotWorker` each receive loop belongs to, and what lies outside the
repository. -/
structure Deployment where
  config : SlotBusConfig
  target : Target
  request_codec : Codec RequestMeta
  response_codec : Codec ResponseMeta
  hub_region : ShmRegion
  worker_region : ShmRegion
  worker_of : ℕ → ℕ

namespace Deployment

variable (D : Deployment)

/-! ### The hub -/

/-- `SlotBus::dispatch`; `k` numbers the call and stands for its oneshot channel. -/
def dispatch (k : ℕ) (call : DispatchCall) : Fallible Unit := do
  match ← claim_free_slot D.hub_region with
  | none => throw (.NoFreeSlots D.config.num_slots)
  | some slot_index =>
      let meta_bytes ← from_except
          ((D.request_codec.to_allocvec call.meta_).mapError .Serialization)
      let method_u8 := method_to_u8 call.method
      -- drop any stale overflow region for this slot before writing
      overflow_remove .hub slot_index
      let overflow ← ExceptT.mk
          (write_request D.target D.hub_region slot_index call.req_id method_u8
            meta_bytes call.body D.config)
      match overflow with
      | some ovf => overflow_insert .hub slot_index ovf
      | none => pure ()
      pending_insert call.req_id k
      signal .request

/-- The response watcher's visit of one slot. -/
def watch_slot (i : ℕ) : Program bus Unit := do
  let status ← load_status i
  if status ≠ SLOT_DONE then pure ()
  else
    -- id and response are read before the slot is given back
    let req_id ← read_req_id i
    let resp_result ← (read_response D.response_codec D.target D.hub_region i D.config).run
    if ← compare_exchange i SLOT_DONE SLOT_FREE then
      overflow_remove .hub i
      match resp_result with
      | .ok (status, m, body) =>
          match ← pending_remove req_id with
          | some tx => send tx ⟨status, body, m.content_type, m.headers⟩
          | none => pure ()
      | .error _ => pure ()
    else pure ()

/-- Visit the given slots in order. -/
def for_each (visit : ℕ → Program bus Unit) : List ℕ → Program bus Unit
  | [] => pure ()
  | i :: rest => do
      visit i
      for_each visit rest

/-- One pass of the response watcher: wait, then scan. -/
def watcher_pass : Program bus Unit := do
  if ← running .hub then
    let _ ← wait .response
    for_each D.watch_slot (List.range D.hub_region.num_slots)
  else pure ()

/-! ### The worker -/

/-- `SlotWorker::send_response`. -/
def send_response (w : ℕ) (slot_index : ℕ) (status : UInt16) (body : List UInt8)
    (content_type : String) (headers : List (String × String)) : Fallible Unit := do
  let resp_meta : ResponseMeta := ⟨content_type, headers⟩
  let meta_bytes ← from_except ((D.response_codec.to_allocvec resp_meta).mapError .Serialization)
  -- drop any stale overflow region for this slot before writing
  overflow_remove (.worker w) slot_index
  let result ← attempt
      (write_response D.target D.worker_region slot_index status meta_bytes body D.config)
  match result with
  | .ok overflow =>
      match overflow with
      | some ovf => overflow_insert (.worker w) slot_index ovf
      | none => pure ()
      signal .response
  | .error e =>
      -- free the slot to prevent a permanent stall
      store slot_index SLOT_FREE
      throw e

/-- The receive loop's visit of one slot. -/
def receive_slot (l i : ℕ) : Program bus Unit := do
  if ← compare_exchange i SLOT_READY SLOT_CLAIMED then
    match ← (read_request D.request_codec D.target D.worker_region i D.config).run with
    | .ok (req_id, method_u8, m, body) =>
        let _ ← handle (D.worker_of l) i (Request.build req_id method_u8 m body)
        pure ()
    | .error _ => store i SLOT_FREE
  else pure ()

/-- One pass of a receive loop: wait, then scan. -/
def receive_pass (l : ℕ) : Program bus Unit := do
  if ← running (.worker (D.worker_of l)) then
    let _ ← wait .request
    for_each (D.receive_slot l) (List.range D.worker_region.num_slots)
  else pure ()

/-! ### The system -/

end Deployment

/-- What the surrounding programs start: a dispatch call, the next pass of the watcher or of a
receive loop, or a `send_response` call of a handler invocation. -/
inductive Launch where
  | dispatch (call : DispatchCall)
  | watcher
  | receive (l : ℕ)
  | respond (reply : Reply)

namespace Deployment

variable (D : Deployment)

/-- The program of the `k`-th dispatch call. -/
def dispatch_program (k : ℕ) (call : DispatchCall) : Program bus Unit := do
  let result ← (D.dispatch k call).run
  finish result

/-- The program of a `send_response` call of a handler invocation on its own slot. -/
def respond_program (inv : Invocation) (reply : Reply) : Program bus Unit := do
  let result ← (D.send_response inv.worker inv.slot reply.status reply.body reply.content_type
    reply.headers).run
  finish result

/-- Start a program: which thread runs it, and what is recorded of its arguments. -/
def launch : Launch → World → Option (Thread × Program bus Unit × World)
  | .dispatch call, w =>
      some (.dispatch w.calls.length, D.dispatch_program w.calls.length call,
        { w with calls := w.calls ++ [call] })
  | .watcher, w => some (.watcher, D.watcher_pass, w)
  | .receive l, w => some (.receive l, D.receive_pass l, w)
  | .respond reply, w =>
      w.invocations[reply.invocation]?.map fun inv =>
        (.respond w.replies.length, D.respond_program inv reply,
          { w with replies := w.replies ++ [reply] })

/-- The hub, its workers and the operating system. -/
def system : System bus Thread World Choice Launch where
  toMachine := machine D.target
  launch := D.launch

end Deployment

/-- The world when a bus has just been created: only the control region and the other processes'
named regions exist. -/
def World.start (mem : Memory) (names : String → Option ℕ) (segments : ℕ → Segment)
    (next_segment : ℕ) : World where
  mem := mem
  names := names
  segments := segments
  next_segment := next_segment
  overflow_regions := fun _ _ => none
  pending := fun _ => none
  resolved := fun _ => none
  event := fun _ => 0
  is_running := fun _ => true
  calls := []
  invocations := []
  replies := []
  log := []

/-- The start: no thread has anything to do. -/
def Start (w : World) : Configuration bus Thread World := ⟨w, fun _ => .done ()⟩

/-! ### A small bus -/

/-- One slot with a heap of 64 bytes. -/
def small_config : SlotBusConfig := ⟨"n", "p", 1, 256⟩

/-- The mapping before it is initialized. -/
def small_mapping : ShmRegion := ⟨0, 256, "p-n", 0, 0, 0⟩

def small_region : ShmRegion := ⟨0, 256, "p-n", 1, 192, 64⟩

/-- The bytes of the small control region. -/
def small_memory : Memory :=
  match small_mapping.init_control small_config fun _ => 0 with
  | .ok (_, mem) => mem
  | .error _ => fun _ => 0

theorem small_region_laid_out :
    small_mapping.init_control small_config (fun _ => 0) = .ok (small_region, small_memory) := rfl

/-- The request metadata of the small bus. -/
def small_request : RequestMeta := ⟨"", "", [], none, []⟩

/-- The response metadata of the small bus. -/
def small_response : ResponseMeta := ⟨"", []⟩

/-- A serializer that knows one value. -/
def small_codec {α : Type} [DecidableEq α] (v : α) (bytes : List UInt8) : Codec α where
  to_allocvec u := if u = v then .ok bytes else .error "unsupported"
  from_bytes b := if b = bytes then .ok v else .error "unsupported"

theorem small_codec_roundTrip {α : Type} [DecidableEq α] (v : α) (bytes : List UInt8) :
    (small_codec v bytes).RoundTrip := by
  intro u b h
  simp only [small_codec] at h ⊢
  split at h
  · rename_i hu
    rw [if_pos (Except.ok.inj h).symm, hu]
  · cases h

/-- A serializer that gives the same bytes to every value. -/
def fixed_codec {α : Type} (v : α) (bytes : List UInt8) : Codec α where
  to_allocvec _ := .ok bytes
  from_bytes _ := .ok v

/-- A bus with one slot. -/
def small_bus (request_codec : Codec RequestMeta) (response_codec : Codec ResponseMeta) :
    Deployment where
  config := small_config
  target := .linux
  request_codec := request_codec
  response_codec := response_codec
  hub_region := small_region
  worker_region := small_region
  worker_of _ := 0

end SlotBus
