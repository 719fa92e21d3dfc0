import SlotBus.Types

/-!
# Configuration and derived OS names

`sanitize_os_name` is the identity except on macOS, where a name of more than 29 bytes is replaced
by a hash followed by its last 15 bytes.  Cutting those bytes off panics when the cut does not fall
on a character boundary, which is the `none` of the functions below.
-/

namespace SlotBus

/-- The operating systems the source distinguishes. -/
inductive Target where
  | windows
  | linux
  | macos
  deriving DecidableEq

/-- The part of a text that occupies exactly its last `n` bytes, if the cut is a character
boundary. -/
def utf8_suffix (n : ℕ) : List Char → Option (List Char)
  | [] => if n = 0 then some [] else none
  | c :: cs =>
      if (String.ofList (c :: cs)).utf8ByteSize = n then some (c :: cs) else utf8_suffix n cs

/-- The digits of the base-62 encoding. -/
def CHARS : List Char :=
  "0123456789ABCDEFGHIJKLMNOPQRSTUVWXYZabcdefghijklmnopqrstuvwxyz".toList

/-- FNV-1a over the bytes of the name, with 64-bit wrap-around. -/
def fnv_hash (bytes : List UInt8) : UInt64 :=
  bytes.foldl (fun hash byte => (hash ^^^ byte.toUInt64) * 0x100000001b3) 0xcbf29ce484222325

/-- The `n` low base-62 digits of a hash, least significant first. -/
def encode_base62 : ℕ → UInt64 → List Char
  | 0, _ => []
  | n + 1, h => CHARS.getD (h % 62).toNat '0' :: encode_base62 n (h / 62)

def MAX_NAME : ℕ := 29

/-- The name under which the operating system knows a region or an event. -/
def sanitize_os_name (target : Target) (name : String) : Option String :=
  match target with
  | .windows | .linux => some name
  | .macos =>
      if name.utf8ByteSize ≤ MAX_NAME then some name
      else
        let encoded := String.ofList (encode_base62 11 (fnv_hash name.toUTF8.toList))
        let max_suffix := MAX_NAME - 14
        let suffix_len := min max_suffix name.utf8ByteSize
        (utf8_suffix suffix_len name.toList).map fun suffix =>
          let result := "sb-" ++ encoded ++ String.ofList suffix
          if MAX_NAME < result.utf8ByteSize then "sb-" ++ encoded else result

/-- The overflow region name before sanitizing; generation 0 carries no generation suffix. -/
def overflow_name (prefix_ name kind : String) (slot generation : ℕ) : String :=
  if generation = 0 then s!"{prefix_}-{name}-{kind}-{slot}"
  else s!"{prefix_}-{name}-{kind}-{slot}-g{generation}"

/-- Configuration of a slotbus shared memory region. -/
structure SlotBusConfig where
  name : String
  prefix_ : String
  num_slots : ℕ
  region_size : ℕ

/-- The full OS-level name for the control region. -/
def SlotBusConfig.region_name (config : SlotBusConfig) (target : Target) : Option String :=
  sanitize_os_name target s!"{config.prefix_}-{config.name}"

/-- The OS-level name for the request event. -/
def SlotBusConfig.request_event_name (config : SlotBusConfig) (target : Target) : Option String :=
  sanitize_os_name target s!"{config.prefix_}-{config.name}-req"

/-- The OS-level name for the response event. -/
def SlotBusConfig.response_event_name (config : SlotBusConfig) (target : Target) : Option String :=
  sanitize_os_name target s!"{config.prefix_}-{config.name}-rsp"

/-- The OS-level name for a request overflow region at a given slot and generation. -/
def SlotBusConfig.request_overflow_name_gen (config : SlotBusConfig) (target : Target)
    (slot generation : ℕ) : Option String :=
  sanitize_os_name target (overflow_name config.prefix_ config.name "req" slot generation)

/-- The OS-level name for a response overflow region at a given slot and generation. -/
def SlotBusConfig.response_overflow_name_gen (config : SlotBusConfig) (target : Target)
    (slot generation : ℕ) : Option String :=
  sanitize_os_name target (overflow_name config.prefix_ config.name "rsp" slot generation)

end SlotBus
