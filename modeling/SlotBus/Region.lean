import SlotBus.World

/-!
# Shared memory regions

The functions of `region.rs` as programs of atomic actions, in the order in which the source
performs them.  `ShmRegion` is a handle to the control region with the layout it cached; the bytes
themselves are in the world.

A request and a response are placed and read back by the same code up to the position of the pointer
fields, the half of the arena and the overflow names; that code is `write_payload` and
`read_payload`, with the direction as parameter.
-/

namespace SlotBus

open ByteMemory AtomicProgram AtomicProgram.Program

/-- A program that may fail. -/
abbrev Fallible := ExceptT SlotBusError (Program bus)

/-- Return an error unless the condition holds. -/
def ensure (c : Prop) [Decidable c] (e : SlotBusError) : Fallible Unit :=
  if c then pure () else throw e

/-- Pass on a result computed without touching the world. -/
def from_except {α : Type} : Except SlotBusError α → Fallible α
  | .ok v => pure v
  | .error e => throw e

/-- Look at the outcome of a program that may fail instead of passing its error on. -/
def attempt {α : Type} (p : Fallible α) : Fallible (Except SlotBusError α) := ExceptT.lift p.run

/-- A value whose computation may panic. -/
def or_panic {α : Type} : Option α → Fallible α
  | some v => pure v
  | none => panic

/-- A handle to a control region: where it is mapped, its length, and the layout cached by
`init_control` or `validate_control`. -/
structure ShmRegion where
  ptr : ℕ
  len : ℕ
  name : String
  num_slots : ℕ
  heap_offset : ℕ
  heap_size : ℕ

/-- The lower-case hexadecimal digits of a number, zero-padded on the left. -/
def hex (width n : ℕ) : String :=
  let digits := Nat.toDigits 16 n
  String.ofList (List.replicate (width - digits.length) '0' ++ digits)

namespace ShmRegion

/-- Heap-relative `(offset, len)` of the request and response sub-arenas of a slot. -/
def slot_arenas (region : ShmRegion) (slot_index : ℕ) : (ℕ × ℕ) × (ℕ × ℕ) :=
  SlotBus.slot_arenas slot_index region.num_slots region.heap_size

/-- Bounds-checked heap read. -/
def heap_read_checked (region : ShmRegion) (offset len : ℕ) : Fallible (List UInt8) :=
  if offset + len ≤ region.heap_size then
    read_bytes (region.heap_offset + offset) len
  else
    throw (.InvalidRegion
      s!"heap read out of bounds: offset={offset} len={len} heap_size={region.heap_size}")

/-- Bounds-checked heap write. -/
def heap_write_checked (region : ShmRegion) (offset : ℕ) (data : List UInt8) : Fallible Unit :=
  if offset + data.length ≤ region.heap_size then
    write_bytes (region.heap_offset + offset) data
  else
    let base := "0x" ++ hex 0 region.ptr
    throw (.InvalidRegion (
      s!"heap write out of bounds: offset={offset} len={data.length} " ++
      s!"heap_size={region.heap_size} base={base}"))

/-! ### Control region initialization -/

/-- Lay out a control region for a config: the new handle and the new bytes of the mapping. -/
def init_control (region : ShmRegion) (config : SlotBusConfig) (mem : Memory) :
    Except SlotBusError (ShmRegion × Memory) :=
  let (heap_offset, heap_size) := compute_layout config.num_slots config.region_size
  let needed := heap_offset + heap_size
  if needed > region.len then
    .error (.InvalidRegion (
      s!"region '{region.name}' maps {region.len} bytes but the requested layout needs {needed} " ++
      s!"(num_slots={config.num_slots}, region_size={config.region_size}); " ++
      "an existing smaller mapping was adopted — " ++
      "stop every peer and remove the stale region before retrying"))
  else
    let region := { region with
      num_slots := config.num_slots, heap_offset := heap_offset, heap_size := heap_size }
    -- the whole mapping is zeroed first
    let mem := write mem 0 (List.replicate region.len 0)
    let mem := write mem 0 (encodeLE 4 SHM_MAGIC)
    let mem := write mem 4 (encodeLE 4 SHM_VERSION)
    let mem := write mem 8 (encodeLE 4 config.num_slots)
    let mem := write mem 12 (encodeLE 4 heap_offset)
    let mem := write mem 16 (encodeLE 4 heap_size)
    -- alloc_head
    let mem := write mem 20 (encodeLE 4 0)
    .ok (region, mem)

/-- Check the header of a control region and take the layout from it. -/
def validate_control (region : ShmRegion) (mem : Memory) : Except SlotBusError ShmRegion :=
  let magic := load mem 0 4
  let version := load mem 4 4
  let num_slots := load mem 8 4
  let heap_offset := load mem 12 4
  let heap_size := load mem 16 4
  if magic ≠ SHM_MAGIC then
    let expected := (hex 8 SHM_MAGIC).toUpper
    let got := (hex 8 magic).toUpper
    .error (.InvalidRegion s!"bad magic: expected 0x{expected}, got 0x{got}")
  else if version ≠ SHM_VERSION then
    .error (.InvalidRegion s!"bad version: expected {SHM_VERSION}, got {version}")
  else if heap_offset + heap_size > region.len then
    let layout_end := heap_offset + heap_size
    .error (.InvalidRegion (
      s!"region '{region.name}' maps {region.len} bytes " ++
      "but its header describes a layout ending at " ++
      s!"{layout_end} (heap_offset={heap_offset}, heap_size={heap_size}); " ++
      "the region was created against a larger region_size"))
  else
    .ok { region with num_slots := num_slots, heap_offset := heap_offset, heap_size := heap_size }

/-! ### Overflow regions -/

/-- Round a payload length up to the mapping granularity. -/
def overflow_size_for (len : ℕ) : ℕ := max ((len + 4095) / 4096 * 4096) 4096

/-- Remove the backing file of a region no process holds; only Windows can tell. -/
def reclaim_orphaned_backing_file (target : Target) (name : String) : Fallible Bool :=
  match target with
  | .windows => shm_reclaim name
  | .linux | .macos => pure false

/-- One `create` attempt; `none` means the name is already taken. -/
def try_create_exclusive (name : String) (size : ℕ) : Fallible (Option OverflowRegion) := do
  match ← shm_create name size with
  | .region r => pure (some r)
  | .mapping_id_exists => pure none
  | .error e => throw (.SharedMemory s!"create '{name}': {e}")

/-- Create a named region, reclaiming the name once if only an orphan holds it. -/
def create_exclusive (target : Target) (name : String) (size : ℕ) :
    Fallible (Option OverflowRegion) := do
  match ← try_create_exclusive name size with
  | some region => pure (some region)
  | none =>
      if ← reclaim_orphaned_backing_file target name then
        try_create_exclusive name size
      else
        pure none

/-- Copy `data` into a freshly created overflow region. -/
def fill_overflow (region : OverflowRegion) (name : String) (data : List UInt8) :
    Fallible OverflowRegion :=
  if region.len < data.length then do
    shm_drop region
    throw (.SharedMemory
      s!"overflow region '{name}' too small for write: need {data.length}, have {region.len}")
  else do
    shm_write region data
    pure region

/-- The generation loop of `create_overflow_fresh`: `remaining` generations from `generation` on. -/
def create_overflow_from (target : Target) (name_for : ℕ → Option String) (data : List UInt8) :
    (remaining generation : ℕ) → (last_name : String) → Fallible (OverflowRegion × UInt8)
  | 0, _, last_name =>
      throw (.SharedMemory (
        s!"exhausted all {MAX_OVERFLOW_GENERATION + 1} overflow generations for '{last_name}': " ++
        s!"need {data.length} bytes " ++
        "(every generation is held by a live peer or an unreclaimable orphan)"))
  | remaining + 1, generation, _ => do
      let name ← or_panic (name_for generation)
      match ← create_exclusive target name (overflow_size_for data.length) with
      | some region =>
          let region ← fill_overflow region name data
          pure (region, UInt8.ofNat (generation + 1))
      | none => create_overflow_from target name_for data remaining (generation + 1) name

/-- Create a fresh overflow region under the first generation whose name is not taken; returns it
with its marker. -/
def create_overflow_fresh (target : Target) (name_for : ℕ → Option String) (data : List UInt8) :
    Fallible (OverflowRegion × UInt8) :=
  create_overflow_from target name_for data (MAX_OVERFLOW_GENERATION + 1) 0 ""

/-- Open an overflow region and read `len` bytes from it. -/
def read_overflow (name : String) (len : ℕ) : Fallible (List UInt8) := do
  match ← shm_open name with
  | .error e => throw (.SharedMemory s!"open '{name}': {e}")
  | .ok (segment, region_len) =>
      if region_len < len then
        throw (.SharedMemory s!"overflow region '{name}' too small: need {len}, have {region_len}")
      else
        shm_read segment len

end ShmRegion

/-! ### Claiming a slot -/

/-- The scan of `claim_free_slot` over the slots still to be tried. -/
def claim_first : List ℕ → Program bus (Option ℕ)
  | [] => pure none
  | i :: rest => do
      if ← compare_exchange i SLOT_FREE SLOT_WRITING then
        pure (some i)
      else
        claim_first rest

/-- Atomically find and reserve a free slot. -/
def claim_free_slot (region : ShmRegion) : Program bus (Option ℕ) :=
  claim_first (List.range region.num_slots)

/-! ### Payload placement -/

/-- The two directions of a slot. -/
inductive Direction where
  | request
  | response
  deriving DecidableEq

/-- Offset of the first pointer field (`meta_offset` or `resp_meta_offset`) in the slot record. -/
def Direction.fields : Direction → ℕ
  | .request => 44
  | .response => 68

/-- The half of a slot's arena. -/
def Direction.half : Direction → (ℕ × ℕ) × (ℕ × ℕ) → ℕ × ℕ
  | .request, arenas => arenas.1
  | .response, arenas => arenas.2

/-- The word in the error message about metadata that does not fit. -/
def Direction.label : Direction → String
  | .request => "request"
  | .response => "response"

/-- The overflow names of a slot. -/
def Direction.overflow_name_gen (d : Direction) (config : SlotBusConfig) (target : Target)
    (slot generation : ℕ) : Option String :=
  match d with
  | .request => config.request_overflow_name_gen target slot generation
  | .response => config.response_overflow_name_gen target slot generation

/-- Where a body goes inside a sub-arena that already holds `meta_len` bytes of metadata, as a
`u32`. -/
def arena_body_offset (base size meta_len body_len : ℕ) : Option ℕ :=
  let start := base + align8 meta_len
  if start + body_len ≤ base + size then some (start % 2 ^ 32) else none

/-- Store the offset, length and marker of a body: the last three pointer fields. -/
def write_body_fields (d : Direction) (slot_index offset len : ℕ) (marker : UInt8) :
    Fallible Unit := do
  write_bytes (slot_address slot_index + (d.fields + 8)) (encodeLE 4 offset)
  write_bytes (slot_address slot_index + (d.fields + 12)) (encodeLE 4 len)
  write_bytes (slot_address slot_index + (d.fields + 16)) [marker]

/-- Write the body (nothing, inline, or overflow) and its pointer fields. -/
def write_body (d : Direction) (target : Target) (region : ShmRegion) (slot_index meta_len : ℕ)
    (body : List UInt8) (config : SlotBusConfig) : Fallible (Option OverflowRegion) :=
  let arena := d.half (region.slot_arenas slot_index)
  if body = [] then do
    write_body_fields d slot_index 0 0 OVERFLOW_INLINE
    pure none
  else
    match arena_body_offset arena.1 arena.2 meta_len body.length with
    | some body_offset => do
        region.heap_write_checked body_offset body
        write_body_fields d slot_index body_offset body.length OVERFLOW_INLINE
        pure none
    | none => do
        let (ovf, marker) ← ShmRegion.create_overflow_fresh target
          (fun generation => d.overflow_name_gen config target slot_index generation) body
        write_body_fields d slot_index 0 body.length marker
        pure (some ovf)

/-- Place metadata and body of one direction and record where they are. -/
def write_payload (d : Direction) (target : Target) (region : ShmRegion) (slot_index : ℕ)
    (meta_bytes body : List UInt8) (config : SlotBusConfig) : Fallible (Option OverflowRegion) := do
  let arena := d.half (region.slot_arenas slot_index)
  ensure (meta_bytes.length ≤ arena.2) (.SharedMemory
    s!"heap full for {d.label} meta: need {meta_bytes.length}, slot arena holds {arena.2}")
  let meta_offset := arena.1 % 2 ^ 32
  region.heap_write_checked meta_offset meta_bytes
  write_bytes (slot_address slot_index + d.fields) (encodeLE 4 meta_offset)
  write_bytes (slot_address slot_index + (d.fields + 4)) (encodeLE 2 meta_bytes.length)
  write_body d target region slot_index meta_bytes.length body config

/-- The body of `write_request`, without the cleanup after an error. -/
def write_request_inner (target : Target) (region : ShmRegion) (slot_index : ℕ) (req_id : String)
    (method : UInt8) (meta_bytes body : List UInt8) (config : SlotBusConfig) :
    Fallible (Option OverflowRegion) := do
  ensure (slot_index < region.num_slots) (.InvalidRegion
    s!"write_request slot_index {slot_index} >= num_slots {region.num_slots}")
  let id_bytes := req_id.toUTF8.toList
  write_bytes (slot_address slot_index + 4) (List.replicate 36 0)
  write_bytes (slot_address slot_index + 4) (id_bytes.take 36)
  write_bytes (slot_address slot_index + 40) [method]
  let overflow_region ← write_payload .request target region slot_index meta_bytes body config
  store slot_index SLOT_READY
  pure overflow_region

/-- Write request data into a slot; on failure the slot is released. -/
def write_request (target : Target) (region : ShmRegion) (slot_index : ℕ) (req_id : String)
    (method : UInt8) (meta_bytes body : List UInt8) (config : SlotBusConfig) :
    Program bus (Except SlotBusError (Option OverflowRegion)) := do
  match ← (write_request_inner target region slot_index req_id method
    meta_bytes body config).run with
  | .ok overflow => pure (.ok overflow)
  | .error e =>
      -- release the reserved slot so it doesn't stay stuck in Writing
      store slot_index SLOT_FREE
      pure (.error e)

/-- Write response data into a slot. -/
def write_response (target : Target) (region : ShmRegion) (slot_index : ℕ) (status : UInt16)
    (meta_bytes body : List UInt8) (config : SlotBusConfig) :
    Fallible (Option OverflowRegion) := do
  ensure (slot_index < region.num_slots) (.InvalidRegion
    s!"write_response slot_index {slot_index} >= num_slots {region.num_slots}")
  write_bytes (slot_address slot_index + 64) (encodeLE 2 status.toNat)
  let overflow_region ← write_payload .response target region slot_index meta_bytes body config
  store slot_index SLOT_DONE
  pure overflow_region

/-! ### Reading -/

/-- The length of the longest prefix that could still begin a well-formed UTF-8 sequence, at least
one: what lossy conversion replaces by a single replacement character. -/
def maximal_subpart : List UInt8 → ℕ
  | b₀ :: b₁ :: rest =>
      let second : Bool :=
        if b₀ = 0xE0 then 0xA0 ≤ b₁ && b₁ ≤ 0xBF
        else if b₀ = 0xED then 0x80 ≤ b₁ && b₁ ≤ 0x9F
        else if b₀ = 0xF0 then 0x90 ≤ b₁ && b₁ ≤ 0xBF
        else if b₀ = 0xF4 then 0x80 ≤ b₁ && b₁ ≤ 0x8F
        else 0xE1 ≤ b₀ && b₀ ≤ 0xF3 && 0x80 ≤ b₁ && b₁ ≤ 0xBF
      match rest with
      | b₂ :: _ =>
          if second && 0xF0 ≤ b₀ && 0x80 ≤ b₂ && b₂ ≤ 0xBF then 3 else if second then 2 else 1
      | [] => if second then 2 else 1
  | _ => 1

/-- Lossy decoding of at most `fuel` characters. -/
def decode_lossy : ℕ → List UInt8 → List Char
  | 0, _ => []
  | _ + 1, [] => []
  | fuel + 1, bytes =>
      match ByteArray.utf8DecodeChar? ⟨bytes.toArray⟩ 0 with
      | some c => c :: decode_lossy fuel (bytes.drop c.utf8Size)
      | none => '\uFFFD' :: decode_lossy fuel (bytes.drop (maximal_subpart bytes))

/-- `String::from_utf8_lossy`: valid UTF-8 as it is, otherwise with replacement characters. -/
def from_utf8_lossy (bytes : List UInt8) : String :=
  match String.fromUTF8? ⟨bytes.toArray⟩ with
  | some s => s
  | none => String.ofList (decode_lossy bytes.length bytes)

/-- Decode the id field of a slot: up to the first NUL, lossily. -/
def decode_req_id (raw : List UInt8) : String :=
  from_utf8_lossy (raw.takeWhile (· ≠ 0))

/-- Read the id field of a slot. -/
def read_req_id (slot_index : ℕ) : Program bus String := do
  let raw ← read_bytes (slot_address slot_index + 4) 36
  pure (decode_req_id raw)

/-- A little-endian field of the slot record. -/
def read_field (slot_index offset width : ℕ) : Program bus ℕ := do
  let raw ← read_bytes (slot_address slot_index + offset) width
  pure (decodeLE raw)

/-- Read back the metadata and body of one direction. -/
def read_payload {α : Type} (d : Direction) (codec : Codec α) (target : Target) (region : ShmRegion)
    (slot_index : ℕ) (config : SlotBusConfig) : Fallible (α × List UInt8) := do
  let meta_offset ← read_field slot_index d.fields 4
  let meta_len ← read_field slot_index (d.fields + 4) 2
  let meta_bytes ← region.heap_read_checked meta_offset meta_len
  let m ← from_except ((codec.from_bytes meta_bytes).mapError .Serialization)
  let body_len ← read_field slot_index (d.fields + 12) 4
  let marker ← read_field slot_index (d.fields + 16) 1
  let body ←
    if body_len = 0 then pure []
    else
      match overflow_generation (UInt8.ofNat marker) with
      | none => do
          let body_offset ← read_field slot_index (d.fields + 8) 4
          region.heap_read_checked body_offset body_len
      | some generation => do
          let name ← or_panic (d.overflow_name_gen config target slot_index generation)
          ShmRegion.read_overflow name body_len
  pure (m, body)

/-- Read request metadata and body from a claimed slot. -/
def read_request (codec : Codec RequestMeta) (target : Target) (region : ShmRegion)
    (slot_index : ℕ) (config : SlotBusConfig) :
    Fallible (String × UInt8 × RequestMeta × List UInt8) := do
  let req_id ← read_req_id slot_index
  let method ← read_field slot_index 40 1
  let (m, body) ← read_payload .request codec target region slot_index config
  pure (req_id, UInt8.ofNat method, m, body)

/-- Read response status, metadata and body from a Done slot. -/
def read_response (codec : Codec ResponseMeta) (target : Target) (region : ShmRegion)
    (slot_index : ℕ) (config : SlotBusConfig) :
    Fallible (UInt16 × ResponseMeta × List UInt8) := do
  let status ← read_field slot_index 64 2
  let (m, body) ← read_payload .response codec target region slot_index config
  pure (UInt16.ofNat status, m, body)

end SlotBus
