import SlotBus.Config
import SlotBus.Foundation.Interleaving

/-!
# The shared world and its atomic actions

Everything the hub and the workers share, and the atomic actions with which they touch it: the
loads, stores and compare-exchanges of slot statuses, plain reads and writes of the mapping, the
operations on named overflow regions, the locked map operations, and the events.

Each action also appends an entry to `log`.  The log is a history variable: no action reads it.
-/

namespace SlotBus

open ByteMemory AtomicProgram

/-! ### The parties -/

/-- The two processes; there may be several `SlotWorker`s on one region. -/
inductive Side where
  | hub
  | worker (w : ℕ)
  deriving DecidableEq

/-- The threads: one per `dispatch` call, the response watcher, the receive loops, and one per
`send_response` call. -/
inductive Thread where
  | dispatch (k : ℕ)
  | watcher
  | receive (l : ℕ)
  | respond (c : ℕ)
  deriving DecidableEq

/-- The request event and the response event of a bus. -/
inductive NamedEvent where
  | request
  | response
  deriving DecidableEq

/-! ### Requests and responses -/

/-- A `HashMap<String, String>`. -/
abbrev StringMap := String → Option String

/-- Collecting pairs into a map: a later pair replaces an earlier one with the same key. -/
def collect (pairs : List (String × String)) : StringMap :=
  pairs.foldl (fun m p => Function.update m p.1 (some p.2)) fun _ => none

/-- A decoded request received by a worker. -/
structure Request where
  req_id : String
  method : String
  path : String
  route_pattern : String
  path_params : StringMap
  query : Option String
  body : List UInt8
  headers : StringMap

/-- The request the receive loop builds from what it read. -/
def Request.build (req_id : String) (method_u8 : UInt8) (m : RequestMeta) (body : List UInt8) :
    Request where
  req_id := req_id
  method := u8_to_method method_u8
  path := m.path
  route_pattern := m.route_pattern
  path_params := collect m.path_params
  query := m.query
  body := body
  headers := collect m.headers

/-- A decoded response received by the hub. -/
structure Response where
  status : UInt16
  body : List UInt8
  content_type : String
  headers : List (String × String)
  deriving DecidableEq

/-- The arguments of one `dispatch` call. -/
structure DispatchCall where
  req_id : String
  method : String
  meta_ : RequestMeta
  body : List UInt8

/-- One invocation of a worker's handler. -/
structure Invocation where
  worker : ℕ
  slot : ℕ
  request : Request

/-- One `send_response` call a handler invocation makes for its own slot. -/
structure Reply where
  invocation : ℕ
  status : UInt16
  body : List UInt8
  content_type : String
  headers : List (String × String)

/-! ### Shared state -/

/-- A shared memory object other than the control region.  `orphan` marks one that a killed process
left behind. -/
structure Segment where
  len : ℕ
  bytes : Memory
  orphan : Bool

/-- The segment after copying `data` to its start. -/
def Segment.fill (s : Segment) (data : List UInt8) : Segment :=
  { s with bytes := write s.bytes 0 data }

/-- A handle to a named overflow region, held by its creator. -/
structure OverflowRegion where
  name : String
  segment : ℕ
  len : ℕ
  deriving DecidableEq

/-- What an exclusive create reports. -/
inductive Created where
  | region (r : OverflowRegion)
  | mapping_id_exists
  | error (text : String)

/-- The atomic actions. -/
inductive Action where
  | load (slot : ℕ)
  | compare_exchange (slot expected new : ℕ)
  | store (slot value : ℕ)
  | write (address : ℕ) (bytes : List UInt8)
  | read (address len : ℕ)
  | shm_create (name : String) (size : ℕ)
  | shm_reclaim (name : String)
  | shm_write (region : OverflowRegion) (data : List UInt8)
  | shm_open (name : String)
  | shm_read (segment len : ℕ)
  | shm_drop (region : OverflowRegion)
  | overflow_remove (side : Side) (slot : ℕ)
  | overflow_insert (side : Side) (slot : ℕ) (region : OverflowRegion)
  | pending_insert (req_id : String) (tx : ℕ)
  | pending_remove (req_id : String)
  | send (tx : ℕ) (response : Response)
  | signal (event : NamedEvent)
  | wait (event : NamedEvent)
  | running (side : Side)
  | handle (worker slot : ℕ) (request : Request)
  | finish (result : Except SlotBusError Unit)
  | panic

/-- What each action answers. -/
def Answer : Action → Type
  | .load _ => ℕ
  | .compare_exchange _ _ _ => Bool
  | .read _ _ => List UInt8
  | .shm_create _ _ => Created
  | .shm_reclaim _ => Bool
  | .shm_open _ => Except String (ℕ × ℕ)
  | .shm_read _ _ => List UInt8
  | .pending_remove _ => Option ℕ
  | .wait _ => Bool
  | .running _ => Bool
  | .handle _ _ _ => ℕ
  | .panic => Empty
  | _ => Unit

/-- The signature of slotbus programs. -/
abbrev bus : Signature := ⟨Action, Answer⟩

section Actions

open Program

abbrev load_status (slot : ℕ) : Program bus ℕ := perform (S := bus) (.load slot)

abbrev compare_exchange (slot expected new : ℕ) : Program bus Bool :=
  perform (S := bus) (.compare_exchange slot expected new)

abbrev store (slot value : ℕ) : Program bus Unit := perform (S := bus) (.store slot value)

abbrev write_bytes (address : ℕ) (bytes : List UInt8) : Program bus Unit :=
  perform (S := bus) (.write address bytes)

abbrev read_bytes (address len : ℕ) : Program bus (List UInt8) :=
  perform (S := bus) (.read address len)

abbrev shm_create (name : String) (size : ℕ) : Program bus Created :=
  perform (S := bus) (.shm_create name size)

abbrev shm_reclaim (name : String) : Program bus Bool := perform (S := bus) (.shm_reclaim name)

abbrev shm_write (region : OverflowRegion) (data : List UInt8) : Program bus Unit :=
  perform (S := bus) (.shm_write region data)

abbrev shm_open (name : String) : Program bus (Except String (ℕ × ℕ)) :=
  perform (S := bus) (.shm_open name)

abbrev shm_read (segment len : ℕ) : Program bus (List UInt8) :=
  perform (S := bus) (.shm_read segment len)

abbrev shm_drop (region : OverflowRegion) : Program bus Unit :=
  perform (S := bus) (.shm_drop region)

abbrev overflow_remove (side : Side) (slot : ℕ) : Program bus Unit :=
  perform (S := bus) (.overflow_remove side slot)

abbrev overflow_insert (side : Side) (slot : ℕ) (region : OverflowRegion) : Program bus Unit :=
  perform (S := bus) (.overflow_insert side slot region)

abbrev pending_insert (req_id : String) (tx : ℕ) : Program bus Unit :=
  perform (S := bus) (.pending_insert req_id tx)

abbrev pending_remove (req_id : String) : Program bus (Option ℕ) :=
  perform (S := bus) (.pending_remove req_id)

abbrev send (tx : ℕ) (response : Response) : Program bus Unit :=
  perform (S := bus) (.send tx response)

abbrev signal (event : NamedEvent) : Program bus Unit := perform (S := bus) (.signal event)

abbrev wait (event : NamedEvent) : Program bus Bool := perform (S := bus) (.wait event)

abbrev running (side : Side) : Program bus Bool := perform (S := bus) (.running side)

abbrev handle (worker slot : ℕ) (request : Request) : Program bus ℕ :=
  perform (S := bus) (.handle worker slot request)

abbrev finish (result : Except SlotBusError Unit) : Program bus Unit :=
  perform (S := bus) (.finish result)

abbrev panic {α : Type} : Program bus α := .act (S := bus) .panic fun r => nomatch (r : Empty)

end Actions

/-- One action that was performed. -/
structure Entry where
  thread : Thread
  action : Action
  answer : Answer action

/-- The state the hub, the workers and the operating system share.

`mem` is the mapped control region, from its first byte on; `names` and `segments` are the other
named regions the operating system knows; `pending` maps a request id to the number of the dispatch
call that waits for it, and `resolved` is what the receivers have been given. -/
structure World where
  mem : Memory
  names : String → Option ℕ
  segments : ℕ → Segment
  next_segment : ℕ
  overflow_regions : Side → ℕ → Option OverflowRegion
  pending : String → Option ℕ
  resolved : ℕ → Option Response
  event : NamedEvent → ℕ
  is_running : Side → Bool
  calls : List DispatchCall
  invocations : List Invocation
  replies : List Reply
  log : List Entry

/-- What the scheduler and the operating system decide about an action: whether it fails for a
reason outside the model (or times out), and the text reported then. -/
structure Choice where
  fault : Bool
  text : String

/-- How the events behave: a Windows auto-reset flag, or a counting POSIX semaphore. -/
def signal_tokens : Target → ℕ → ℕ
  | .windows, _ => 1
  | .linux, n => n + 1
  | .macos, n => n + 1

/-- The address of the record of a slot.  The source computes it in `usize`; below slot `2 ^ 57`
nothing wraps there, so for every slot of a table in a mapping the two are the same. -/
def slot_address (slot : ℕ) : ℕ := SHM_HEADER_SIZE + slot * SLOT_META_SIZE

/-- The atomic status word of a slot. -/
def slot_status (mem : Memory) (slot : ℕ) : ℕ := load mem (slot_address slot) 4

/-- The world after a store to a slot's status word. -/
def World.set_status (w : World) (slot value : ℕ) : World :=
  { w with mem := write w.mem (slot_address slot) (encodeLE 4 value) }

/-- Dropping the handle of a region its creator holds releases the name. -/
def World.drop_region (w : World) (r : OverflowRegion) : World :=
  if w.names r.name = some r.segment then
    { w with names := Function.update w.names r.name none }
  else w

/-- Dropping the handle an overflow map held, if any. -/
def World.drop_option (w : World) : Option OverflowRegion → World
  | none => w
  | some r => w.drop_region r

/-- The overflow map of one side with the entry of a slot replaced. -/
def World.set_overflow (w : World) (side : Side) (slot : ℕ) (r : Option OverflowRegion) : World :=
  { w with overflow_regions :=
      Function.update w.overflow_regions side (Function.update (w.overflow_regions side) slot r) }

/-- What an action does, before it is logged. -/
def effect (target : Target) (c : Choice) (w : World) : (a : Action) → Option (Answer a × World)
  | .load i => some (slot_status w.mem i, w)
  | .compare_exchange i expected new =>
      if slot_status w.mem i = expected then some (true, w.set_status i new) else some (false, w)
  | .store i value => some ((), w.set_status i value)
  | .write a bytes => some ((), { w with mem := write w.mem a bytes })
  | .read a len => some (read w.mem a len, w)
  | .shm_create name size =>
      if c.fault then some (.error c.text, w)
      else if (w.names name).isSome then some (.mapping_id_exists, w)
      else some (.region ⟨name, w.next_segment, size⟩,
        { w with
          names := Function.update w.names name (some w.next_segment)
          segments := Function.update w.segments w.next_segment ⟨size, fun _ => 0, false⟩
          next_segment := w.next_segment + 1 })
  | .shm_reclaim name =>
      match w.names name with
      | some s =>
          if (w.segments s).orphan && !c.fault then
            some (true, { w with names := Function.update w.names name none })
          else some (false, w)
      | none => some (false, w)
  | .shm_write r data =>
      some
        ((),
          { w with
            segments := Function.update w.segments r.segment ((w.segments r.segment).fill data) })
  | .shm_open name =>
      match w.names name with
      | some s => some (.ok (s, (w.segments s).len), w)
      | none => some (.error c.text, w)
  | .shm_read s len => some (read (w.segments s).bytes 0 len, w)
  | .shm_drop r => some ((), w.drop_region r)
  | .overflow_remove side i =>
      some ((), (w.drop_option (w.overflow_regions side i)).set_overflow side i none)
  | .overflow_insert side i r =>
      some ((), (w.drop_option (w.overflow_regions side i)).set_overflow side i (some r))
  | .pending_insert id tx => some ((), { w with pending := Function.update w.pending id (some tx) })
  | .pending_remove id =>
      some (w.pending id, { w with pending := Function.update w.pending id none })
  | .send tx response =>
      some ((), { w with resolved := Function.update w.resolved tx (some response) })
  | .signal e =>
      some ((), { w with event := Function.update w.event e (signal_tokens target (w.event e)) })
  | .wait e =>
      if c.fault then some (false, w)
      else if w.event e = 0 then none
      else some (true, { w with event := Function.update w.event e (w.event e - 1) })
  | .running side => some (w.is_running side, w)
  | .handle worker slot request =>
      some (w.invocations.length,
        { w with invocations := w.invocations ++ [⟨worker, slot, request⟩] })
  | .finish _ => some ((), w)
  | .panic => none

/-- The machine: an action has its effect and is logged. -/
def machine (target : Target) : Machine bus Thread World Choice where
  exec t a c w :=
    (effect target c w a).map fun x => (x.1, { x.2 with log := ⟨t, a, x.1⟩ :: x.2.log })

end SlotBus
