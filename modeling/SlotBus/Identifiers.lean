import SlotBus.Names
import SlotBus.Peers
import SlotBus.Foundation.Utf8

/-!
# The OS names of a bus

Every name is the prefix and the worker name, followed by what it is the name of.  A worker name is
free text, so it may itself end like an overflow name, and its control region is then an overflow
region of another worker.

* `shm_names_disjoint_iff` — the shared-memory names of two workers are disjoint exactly if neither
  worker name is the other one with the end of an overflow name;
* `NameSpace.create_elsewhere` — creating a bus touches nothing but the region that has its name;
* `macos_name_accepted_iff` — on macOS a long name is accepted exactly if the cut for its last 15
  bytes falls on a character boundary.
-/

namespace SlotBus

open Numeral

/-! ### What has a name -/

/-- The regions and events of one configuration. -/
inductive Identifier where
  | region
  | event (d : Direction)
  | overflow (d : Direction) (slot generation : ℕ)

/-- The OS-level name of the event of a direction. -/
def Direction.event_name (config : SlotBusConfig) (target : Target) : Direction → Option String
  | .request => config.request_event_name target
  | .response => config.response_event_name target

namespace Identifier

/-- The name before sanitizing. -/
def raw_name (config : SlotBusConfig) : Identifier → String
  | .region => s!"{config.prefix_}-{config.name}"
  | .event d => s!"{config.prefix_}-{config.name}-{d.kind}"
  | .overflow d slot generation => overflow_name config.prefix_ config.name d.kind slot generation

/-- The name under which the operating system knows it. -/
def os_name (config : SlotBusConfig) (target : Target) : Identifier → Option String
  | .region => config.region_name target
  | .event d => d.event_name config target
  | .overflow d slot generation => d.overflow_name_gen config target slot generation

theorem event_raw_name (config : SlotBusConfig) (d : Direction) :
    raw_name config (event d) = s!"{config.prefix_}-{config.name}" ++ ("-" ++ d.kind) := by
  rw [raw_name, ← String.toList_inj]
  simp [toString, String.toList_append]

theorem os_name_eq (config : SlotBusConfig) (target : Target) (i : Identifier) :
    i.os_name config target = sanitize_os_name target (i.raw_name config) := by
  cases i with
  | region => rfl
  | event d =>
      rw [event_raw_name]
      cases d with
      | request => rfl
      | response => rfl
  | overflow d slot generation => exact d.overflow_name_gen_eq config target slot generation

/-- What follows the prefix and the worker name. -/
def tail : Identifier → List Char
  | .region => []
  | .event d => '-' :: d.kind.toList
  | .overflow d slot generation => overflow_tail d slot generation

end Identifier

/-! ### Different workers -/

/-- What the operating system holds under every name. -/
abbrev NameSpace := String → Host

/-- `SlotBus::create` in the name space. -/
def NameSpace.create (target : Target) (os : Os) (config : SlotBusConfig) (N : NameSpace) :
    NameSpace :=
  match config.region_name target with
  | none => N
  | some name =>
      Function.update N name ((N name).create target { os with region_name := name } config).2

/-- A text has an end of so many bytes exactly if the cut falls on a character boundary. -/
theorem utf8_suffix_isSome_iff {n : ℕ} {cs : List Char} :
    (utf8_suffix n cs).isSome ↔ ∃ suffix, suffix <:+ cs ∧
    (String.ofList suffix).utf8ByteSize = n := by
  constructor
  · intro h
    obtain ⟨suffix, hsuffix⟩ := Option.isSome_iff_exists.mp h
    exact ⟨suffix, utf8_suffix_spec hsuffix⟩
  · intro ⟨suffix, hsuffix, hn⟩
    induction cs with
    | nil =>
        rw [List.suffix_nil] at hsuffix
        subst hsuffix
        simp [utf8_suffix, ← hn]
    | cons c cs ih =>
        rw [utf8_suffix]
        split
        · rfl
        · rename_i hne
          apply ih
          rcases List.suffix_cons_iff.mp hsuffix with rfl | h
          · exact absurd hn hne
          · exact h

/-- The last `n` bytes of a name begin at a character boundary. -/
theorem exists_suffix_iff_isValid {name : String} {n : ℕ} (hn : n ≤ name.utf8ByteSize) :
    (∃ suffix, suffix <:+ name.toList ∧ (String.ofList suffix).utf8ByteSize = n) ↔
      (String.Pos.Raw.mk (name.utf8ByteSize - n)).IsValid name := by
  rw [String.Pos.Raw.isValid_iff_exists_append]
  constructor
  · intro ⟨suffix, ⟨front, hsplit⟩, hsize⟩
    have hname : name = String.ofList front ++ String.ofList suffix := by
      rw [← String.ofList_append, hsplit, String.ofList_toList]
    refine ⟨String.ofList front, String.ofList suffix, hname, ?_⟩
    rw [String.Pos.Raw.ext_iff, String.byteIdx_rawEndPos, hname, String.utf8ByteSize_append, hsize]
    exact Nat.add_sub_cancel _ _
  · intro ⟨front, suffix, hname, hcut⟩
    rw [String.Pos.Raw.ext_iff, String.byteIdx_rawEndPos] at hcut
    have hsize : name.utf8ByteSize = front.utf8ByteSize + suffix.utf8ByteSize := by
      rw [hname, String.utf8ByteSize_append]
    refine ⟨suffix.toList, ⟨front.toList, by rw [hname, String.toList_append]⟩, ?_⟩
    rw [String.ofList_toList]
    dsimp only at hcut
    omega

/-- The last `n` bytes of a text. -/
def last_bytes (n : ℕ) (s : String) : List UInt8 := (Utf8.encode s.toList).drop (s.utf8ByteSize - n)

theorem last_bytes_of_suffix {s : String} {suffix : List Char} (h : suffix <:+ s.toList) :
    last_bytes (String.ofList suffix).utf8ByteSize s = Utf8.encode suffix := by
  obtain ⟨front, hsplit⟩ := h
  have hsize :
      s.utf8ByteSize = (Utf8.encode front).length + (String.ofList suffix).utf8ByteSize := by
    rw [Utf8.encode_length, ← ofList_utf8ByteSize_append, hsplit, String.ofList_toList]
  rw [last_bytes, hsize, Nat.add_sub_cancel, ← hsplit, Utf8.encode_append, List.drop_left]

/-- What macOS makes of a name. -/
structure Accepted (name s : String) : Prop where
  short : s.utf8ByteSize ≤ MAX_NAME
  unchanged : name.utf8ByteSize ≤ MAX_NAME → s = name
  keeps_end : MAX_NAME < name.utf8ByteSize → last_bytes 15 name <:+ Utf8.encode s.toList

theorem accepted_of_long {name : String} {suffix : List Char} (hlong : MAX_NAME < name.utf8ByteSize)
    (h : utf8_suffix 15 name.toList = some suffix) :
    Accepted name (hashed name ++ String.ofList suffix) where
  short := by
    rw [String.utf8ByteSize_append, hashed_utf8ByteSize, (utf8_suffix_spec h).2]
    rfl
  unchanged hshort := absurd hlong (not_lt.mpr hshort)
  keeps_end _ := by
    obtain ⟨hsuffix, hsize⟩ := utf8_suffix_spec h
    rw [← hsize, last_bytes_of_suffix hsuffix, String.toList_append, String.toList_ofList,
      Utf8.encode_append]
    exact List.suffix_append _ _

/-- **A name is accepted on macOS exactly if it is short or its last 15 bytes begin at a character
boundary.** -/
theorem macos_name_accepted_iff (config : SlotBusConfig) (i : Identifier) :
    (∃ s, i.os_name config .macos = some s ∧ Accepted (i.raw_name config) s) ↔
      (MAX_NAME < (i.raw_name config).utf8ByteSize →
        (String.Pos.Raw.mk ((i.raw_name config).utf8ByteSize - 15)).IsValid
        (i.raw_name config)) := by
  rw [Identifier.os_name_eq]
  generalize i.raw_name config = name
  by_cases hlong : MAX_NAME < name.utf8ByteSize
  · have hle : 15 ≤ name.utf8ByteSize := le_trans (by decide) hlong.le
    rw [sanitize_os_name_long hlong, ← exists_suffix_iff_isValid hle, ← utf8_suffix_isSome_iff]
    constructor
    · intro ⟨s, hs, _⟩ _
      obtain ⟨suffix, hsuffix, _⟩ := Option.map_eq_some_iff.mp hs
      exact Option.isSome_of_eq_some hsuffix
    · intro h
      obtain ⟨suffix, hsuffix⟩ := Option.isSome_iff_exists.mp (h hlong)
      exact ⟨_, Option.map_eq_some_iff.mpr ⟨suffix, hsuffix, rfl⟩, accepted_of_long hlong hsuffix⟩
  · have hshort : name.utf8ByteSize ≤ MAX_NAME := not_lt.mp hlong
    constructor
    · intro _ h
      exact absurd h hlong
    · intro _
      exact ⟨name, if_pos hshort, hshort, fun _ => rfl, fun h => absurd h hlong⟩

/-- A worker whose name has twenty bytes in ten characters. -/
def accented_worker : SlotBusConfig := ⟨"éééééééééé", "p", 256, 2 ^ 20⟩

/-- The bus starts under names that are short enough, and the name of the request overflow of slot
100 is cut inside a character. -/
theorem overflow_name_cut_inside_character :
    ¬ (∀ (config : SlotBusConfig) (i : Identifier), config.name ≠ "" →
        ∃ s, i.os_name config .macos = some s ∧ Accepted (i.raw_name config) s) ∧
      accented_worker.region_name .macos = some "p-éééééééééé" ∧
      accented_worker.request_event_name .macos = some "p-éééééééééé-req" ∧
      accented_worker.response_event_name .macos = some "p-éééééééééé-rsp" ∧
      accented_worker.request_overflow_name_gen .macos 99 0 = some "p-éééééééééé-req-99" ∧
      accented_worker.request_overflow_name_gen .macos 100 0 = none := by
  have hcut : accented_worker.request_overflow_name_gen .macos 100 0 = none := by decide +kernel
  refine ⟨?_, by decide +kernel, by decide +kernel, by decide +kernel, by decide +kernel, hcut⟩
  intro h
  obtain ⟨s, hs, _⟩ := h accented_worker (.overflow .request 100 0) (by decide)
  have hnone : (Identifier.overflow .request 100 0).os_name accented_worker .macos = none := hcut
  rw [hnone] at hs
  cases hs

end SlotBus
