import SlotBus.Foundation.ByteMemory

/-!
# Shared memory layout types

The constants, the layout arithmetic and the data carried by a request and a response.  Offsets and
lengths are natural numbers (`usize` in the source); the places where the source narrows one to a
field of the slot record are in `Region`.
-/

namespace SlotBus

/-! ### Constants -/

/-- Magic number identifying a slotbus control region ("SLB1"). -/
def SHM_MAGIC : ℕ := 0x534C4231

/-- Current protocol version. -/
def SHM_VERSION : ℕ := 2

/-- Size of one slot record in bytes. -/
def SLOT_META_SIZE : ℕ := 128

/-- Size of the region header in bytes. -/
def SHM_HEADER_SIZE : ℕ := 64

/-- Available for a new request. -/
def SLOT_FREE : ℕ := 0

/-- The hub has written a request and waits for a worker to claim it. -/
def SLOT_READY : ℕ := 1

/-- The worker has claimed the request and is processing it. -/
def SLOT_CLAIMED : ℕ := 2

/-- The worker has written the response and waits for the hub to read it. -/
def SLOT_DONE : ℕ := 3

/-- The hub is writing request data into this slot. -/
def SLOT_WRITING : ℕ := 4

/-! ### Overflow marker encoding -/

/-- Marker of a body stored inline in the heap. -/
def OVERFLOW_INLINE : UInt8 := 0

/-- Highest overflow generation that can be encoded in a marker byte. -/
def MAX_OVERFLOW_GENERATION : ℕ := 254

/-- The generation a marker stands for; the inline marker has none. -/
def overflow_generation (marker : UInt8) : Option ℕ :=
  if marker.toNat = 0 then none else some (marker.toNat - 1)

/-! ### HTTP method encoding -/

def METHOD_GET : UInt8 := 0
def METHOD_POST : UInt8 := 1
def METHOD_PUT : UInt8 := 2
def METHOD_DELETE : UInt8 := 3
def METHOD_PATCH : UInt8 := 4
def METHOD_HEAD : UInt8 := 5
def METHOD_OPTIONS : UInt8 := 6

/-- Encode an HTTP method string to a byte. -/
def method_to_u8 (method : String) : UInt8 :=
  if method = "GET" then METHOD_GET
  else if method = "POST" then METHOD_POST
  else if method = "PUT" then METHOD_PUT
  else if method = "DELETE" then METHOD_DELETE
  else if method = "PATCH" then METHOD_PATCH
  else if method = "HEAD" then METHOD_HEAD
  else if method = "OPTIONS" then METHOD_OPTIONS
  else METHOD_GET

/-- Decode a method byte to an HTTP method string. -/
def u8_to_method (m : UInt8) : String :=
  if m = METHOD_GET then "GET"
  else if m = METHOD_POST then "POST"
  else if m = METHOD_PUT then "PUT"
  else if m = METHOD_DELETE then "DELETE"
  else if m = METHOD_PATCH then "PATCH"
  else if m = METHOD_HEAD then "HEAD"
  else if m = METHOD_OPTIONS then "OPTIONS"
  else "GET"

/-! ### Layout -/

/-- Heap offset and heap size derived from the slot count and the region size. -/
def compute_layout (num_slots region_size : ℕ) : ℕ × ℕ :=
  let heap_offset := SHM_HEADER_SIZE + num_slots * SLOT_META_SIZE
  (heap_offset, region_size - heap_offset)

/-- Byte length of one slot's arena: an equal share of the heap, rounded down to 8. -/
def arena_size (num_slots heap_size : ℕ) : ℕ :=
  if num_slots = 0 then 0 else heap_size / num_slots / 8 * 8

/-- Heap-relative `(offset, len)` of the request and the response half of a slot's arena. -/
def slot_arenas (slot_index num_slots heap_size : ℕ) : (ℕ × ℕ) × (ℕ × ℕ) :=
  let arena := arena_size num_slots heap_size
  let base := slot_index * arena
  let half := arena / 2 / 8 * 8
  ((base, half), (base + half, arena - half))

/-- Round up to the next multiple of 8. -/
def align8 (n : ℕ) : ℕ := (n + 7) / 8 * 8

/-! ### Metadata and errors -/

/-- Serialized into the heap alongside each request. -/
structure RequestMeta where
  path : String
  route_pattern : String
  path_params : List (String × String)
  query : Option String
  headers : List (String × String)
  deriving DecidableEq

/-- Serialized into the heap alongside each response. -/
structure ResponseMeta where
  content_type : String
  headers : List (String × String)
  deriving DecidableEq

/-- Errors the modelled operations return. -/
inductive SlotBusError where
  | SharedMemory (text : String)
  | InvalidRegion (text : String)
  | NoFreeSlots (num_slots : ℕ)
  | Serialization (text : String)
  deriving DecidableEq

/-- A serializer as the transport uses it: the wire format itself lies outside the repository. -/
structure Codec (α : Type) where
  to_allocvec : α → Except String (List UInt8)
  from_bytes : List UInt8 → Except String α

/-- What is documented of the serializer: deserializing a serialized value gives it back. -/
def Codec.RoundTrip {α : Type} (codec : Codec α) : Prop :=
  ∀ v bytes, codec.to_allocvec v = .ok bytes → codec.from_bytes bytes = .ok v

end SlotBus
