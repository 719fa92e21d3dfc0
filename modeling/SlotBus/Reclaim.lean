import SlotBus.Region
import SlotBus.Foundation.WindowsPath

/-!
# The backing file of a region

On Windows a region of a killed process is reclaimed by deleting its backing file, and the name of
the region comes from a registration request.

* `ShmRegion.backing_file_path` — the file that a region name stands for;
* `ShmRegion.Escaping` — the ways in which a name could leave the backing directory;
* `ShmRegion.backing_file_confined` — the file is a child of the backing directory, and no escaping
  name has one.
-/

namespace SlotBus

open WindowsPath

namespace ShmRegion

/-- The directory of the backing files, for the temporary directory of the process. -/
def backing_file_dir (temp_dir : List Char) : List Char :=
  join temp_dir "shared_memory-rs".toList

/-- The name without its leading `/`. -/
def trimmed (name : String) : List Char :=
  name.toList.dropWhile (· == '/')

/-- The backing file of a name that is exactly one ordinary component. -/
def backing_file_path (temp_dir : List Char) (name : String) : Option (List Char) :=
  match components (trimmed name) with
  | [.normal _] => some (join (backing_file_dir temp_dir) (trimmed name))
  | _ => none

theorem backing_file_path_eq_some {temp_dir path : List Char} {name : String}
    (h : backing_file_path temp_dir name = some path) :
    ∃ file, components (trimmed name) = [.normal file] ∧
      path = join (backing_file_dir temp_dir) (trimmed name) := by
  unfold backing_file_path at h
  split at h
  next file hone => exact ⟨file, hone, (Option.some.inj h).symm⟩
  next => cases h

/-- What would let a name leave the backing directory, written with either separator. -/
inductive Escaping (name : List Char) : Prop
  /-- A `..` between two separators or at an end. -/
  | parent_dir (h : ['.', '.'] ∈ name.splitOnP isSep)
  /-- A root. -/
  | root (h : hasRoot name = true)
  /-- A drive, a UNC, a device or a verbatim prefix. -/
  | volume (h : (prefixOf name).isSome = true)
  /-- A separator between two components. -/
  | separator (a b : List Char) (s : Char) (h : name = a ++ s :: b) (hs : isSep s = true)
      (ha : body false a ≠ []) (hb : body false b ≠ [])

/-- A name of one component cannot escape. -/
theorem not_escaping {name file : List Char} (h : components name = [.normal file]) :
    ¬Escaping name := by
  obtain ⟨hnone, hroot, hbody⟩ := components_single h
  intro hesc
  cases hesc with
  | parent_dir hdots =>
      have hmem : Component.parentDir ∈ body false name :=
        List.mem_filterMap.mpr ⟨_, hdots, rfl⟩
      rw [hbody, List.mem_singleton] at hmem
      cases hmem
  | root hr =>
      rw [hroot] at hr
      cases hr
  | volume hv =>
      rw [hnone] at hv
      cases hv
  | separator a b s hname hs ha hb =>
      -- each side of the separator would have a component of its own
      have hlen := congrArg List.length hbody
      rw [hname, body_append (show bodySep false s = true from hs), List.length_append,
        List.length_singleton] at hlen
      have hapos := List.length_pos_of_ne_nil ha
      have hbpos := List.length_pos_of_ne_nil hb
      omega

/-- The directory of the backing files is fully qualified if the temporary directory is. -/
theorem backing_file_dir_qualified {temp_dir : List Char} (h : FullyQualified temp_dir) :
    FullyQualified (backing_file_dir temp_dir) :=
  have hdir : components "shared_memory-rs".toList = [.normal "shared_memory-rs".toList] := by
    decide +kernel
  (components_join h hdir).2

theorem trimmed_eq {name : String} {slashes : ℕ} {tail : List Char}
    (h : name.toList = List.replicate slashes '/' ++ tail) (htail : tail.head? ≠ some '/') :
    trimmed name = tail := by
  have hall : ∀ c ∈ List.replicate slashes '/', (c == '/') = true := by
    intro c hc
    rw [List.eq_of_mem_replicate hc]
    rfl
  rw [trimmed, h, List.dropWhile_append_of_pos hall]
  cases tail with
  | nil => rfl
  | cons c tail =>
      have hc : (c == '/') = false := by
        rw [beq_eq_false_iff_ne]
        intro heq
        rw [heq] at htail
        exact htail rfl
      rw [List.dropWhile_cons, hc]
      rfl

/-- **Reclaim is confined to the backing directory.**  Whatever the region name, the backing file is
a child of the backing directory, named by the one component that was checked; and behind any number
of leading `/`, a name that could leave the directory has no backing file.  The temporary directory
is an absolute path. -/
theorem backing_file_confined (temp_dir : List Char) (htemp : FullyQualified temp_dir)
    (name : String) :
    (∀ path, backing_file_path temp_dir name = some path →
      ∃ file, Proper false file ∧ components (trimmed name) = [.normal file] ∧
        components path = components (backing_file_dir temp_dir) ++ [.normal file]) ∧
    ∀ (slashes : ℕ) (tail : List Char), name.toList = List.replicate slashes '/' ++ tail →
      tail.head? ≠ some '/' → Escaping tail → backing_file_path temp_dir name = none := by
  constructor
  · intro path hpath
    obtain ⟨file, hone, rfl⟩ := backing_file_path_eq_some hpath
    have hbody := (components_single hone).2.2
    have hmem : Component.normal file ∈ body false (trimmed name) := by
      rw [hbody]
      exact List.mem_singleton_self _
    have hproper : Proper false file := mem_body hmem
    exact ⟨file, hproper, hone, (components_join (backing_file_dir_qualified htemp) hone).1⟩
  · intro slashes tail hname htail hesc
    cases hpath : backing_file_path temp_dir name with
    | none => rfl
    | some path =>
        obtain ⟨file, hone, -⟩ := backing_file_path_eq_some hpath
        rw [trimmed_eq hname htail] at hone
        exact absurd hesc (not_escaping hone)

/-- A drive with the usual name of its temporary directory. -/
theorem drive_qualified : FullyQualified "C:\\Temp\\".toList :=
  ⟨.disk 'C', by decide, trivial, by decide⟩

theorem backing_file_confined_small :
    (∃ path, backing_file_path "C:\\Temp\\".toList "//hub-w-rsp-0/." = some path ∧
      ∃ file, components path = components (backing_file_dir "C:\\Temp\\".toList) ++
        [.normal file]) ∧
    backing_file_path "C:\\Temp\\".toList "/hub-..\\../../victim" = none := by
  constructor
  · have hpath : backing_file_path "C:\\Temp\\".toList "//hub-w-rsp-0/." =
        some "C:\\Temp\\shared_memory-rs\\hub-w-rsp-0/.".toList := by decide +kernel
    obtain ⟨file, -, -, hchild⟩ := (backing_file_confined _ drive_qualified _).1 _ hpath
    exact ⟨_, hpath, file, hchild⟩
  · apply (backing_file_confined _ drive_qualified _).2 1 "hub-..\\../../victim".toList
    · decide
    · decide
    · exact .parent_dir (by decide)

end ShmRegion

end SlotBus
