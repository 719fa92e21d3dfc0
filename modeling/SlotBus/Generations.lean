import SlotBus.Overflow

/-!
# The first free generation

`create_overflow_fresh` on an operating system that refuses a name only if it is taken: which
generation it finds, and what it leaves of the regions that were there before.

* `create_overflow_from_calm` — the generations that were tried in vain are taken, and nothing has
  happened to them;
* `create_overflow_fresh_first_free` — **the first generation that can be had**, with the bytes
  where the reader looks;
* `orphan_is_reused` — a generation whose name was taken, by an orphan.
-/

namespace SlotBus

open ByteMemory AtomicProgram AtomicProgram.Program

/-- An action that creates a named region. -/
def Action.creates : Action → Bool
  | .shm_create _ _ => true
  | _ => false

/-- The machine of an operating system that refuses to create a region only if the name is taken. -/
def calm (target : Target) : Machine bus Thread World Choice where
  exec t a c w := if a.creates && c.fault then none else (machine target).exec t a c w

variable {target : Target} {t : Thread} {w w' : World}

theorem calm_exec {a : Action} {c : Choice} {r : Answer a}
    (h : (calm target).exec t a c w = some (r, w')) :
    (machine target).exec t a c w = some (r, w') := by
  simp only [calm] at h
  split at h
  · cases h
  · exact h

theorem calm_create {n : String} {size : ℕ} {c : Choice} {r : Created}
    (h : (calm target).exec t (.shm_create n size) c w = some (r, w')) : c.fault = false := by
  simp only [calm, Action.creates, Bool.true_and] at h
  split at h
  · cases h
  · rename_i hfault
    simpa using hfault

/-- The named regions are the same. -/
structure SameRegions (w w' : World) : Prop where
  names : w'.names = w.names
  segments : w'.segments = w.segments
  next_segment : w'.next_segment = w.next_segment

namespace SameRegions

theorem refl (w : World) : SameRegions w w := ⟨rfl, rfl, rfl⟩

theorem trans {w'' : World} (h : SameRegions w w') (h' : SameRegions w' w'') : SameRegions w w'' :=
  ⟨h'.names.trans h.names, h'.segments.trans h.segments, h'.next_segment.trans h.next_segment⟩

end SameRegions

/-- A name that could be had: it is free now, and it was free before or stood for an orphan. -/
structure Vacated (target : Target) (w : World) (n : String) (w' : World) : Prop where
  names : w'.names = Function.update w.names n none
  segments : w'.segments = w.segments
  next_segment : w'.next_segment = w.next_segment
  cause : w.names n = none ∨ target = .windows ∧ ∃ s, w.names n = some s ∧
    (w.segments s).orphan = true

theorem Vacated.of_same {n : String} (h : SameRegions w w') (hn : w.names n = none) :
    Vacated target w n w' where
  names := by rw [h.names, ← hn, Function.update_eq_self]
  segments := h.segments
  next_segment := h.next_segment
  cause := .inl hn

theorem Vacated.of_trans {u : World} {n : String} (h : Vacated target u n w')
    (hu : SameRegions w u) :
    Vacated target w n w' where
  names := by rw [h.names, hu.names]
  segments := h.segments.trans hu.segments
  next_segment := h.next_segment.trans hu.next_segment
  cause := by
    rw [← hu.names, ← hu.segments]
    exact h.cause

/-! ### One attempt -/

theorem try_create_calm {n : String} {size : ℕ}
    {result : Except SlotBusError (Option OverflowRegion)}
    (h : Runs (calm target) t (ShmRegion.try_create_exclusive n size).run w result w') :
    (SameRegions w w' ∧ result = .ok none ∧ w.names n ≠ none) ∨
      ∃ r, result = .ok (some r) ∧ r.name = n ∧ r.len = size ∧ CreatedRegion w r [] w' := by
  rcases try_create_runs (h.mono calm_exec) with ⟨-, -⟩ | hcreated
  · obtain ⟨c, x, u, hx, hk⟩ := Runs.act_iff.mp h
    have hfault := calm_create hx
    obtain ⟨v, hv, rfl⟩ := exec_iff.mp (calm_exec hx)
    simp only [effect, hfault, Bool.false_eq_true, if_false] at hv
    split at hv <;> obtain ⟨rfl, rfl⟩ := Prod.mk.inj (Option.some.inj hv) <;>
      obtain ⟨rfl, rfl⟩ := Runs.done_iff.mp hk
    · rename_i htaken
      exact .inl ⟨⟨rfl, rfl, rfl⟩, rfl, fun hnone => by simp [hnone] at htaken⟩
    · rename_i hfree
      refine .inr ⟨_, rfl, rfl, rfl, by simpa using hfree, rfl, rfl, rfl, ?_⟩
      simp only [Segment.fill]
      congr 1
  · exact .inr hcreated

theorem reclaim_calm {n : String} {result : Except SlotBusError Bool}
    (h : Runs (calm target) t (ShmRegion.reclaim_orphaned_backing_file target n).run w result w') :
    (SameRegions w w' ∧ result = .ok false) ∨
    (result = .ok true ∧ w'.names n = none ∧ Vacated target w n w') := by
  unfold ShmRegion.reclaim_orphaned_backing_file at h
  split at h
  · obtain ⟨c, x, u, hx, hk⟩ := Runs.act_iff.mp h
    obtain ⟨rfl, rfl⟩ := Runs.done_iff.mp hk
    obtain ⟨v, hv, rfl⟩ := exec_iff.mp (calm_exec hx)
    simp only [effect] at hv
    split at hv
    · rename_i s hs
      split at hv <;> obtain ⟨rfl, rfl⟩ := Prod.mk.inj (Option.some.inj hv)
      · rename_i horphan
        simp only [Bool.and_eq_true] at horphan
        exact .inr ⟨rfl, Function.update_self _ _ _, rfl, rfl, rfl, .inr ⟨rfl, s, hs, horphan.1⟩⟩
      · exact .inl ⟨⟨rfl, rfl, rfl⟩, rfl⟩
    · obtain ⟨rfl, rfl⟩ := Prod.mk.inj (Option.some.inj hv)
      exact .inl ⟨⟨rfl, rfl, rfl⟩, rfl⟩
  all_goals
    obtain ⟨rfl, rfl⟩ := Runs.done_iff.mp h
    exact .inl ⟨.refl _, rfl⟩

/-- One generation: its name is taken, or the region is created. -/
theorem create_exclusive_calm {n : String} {size : ℕ}
    {result : Except SlotBusError (Option OverflowRegion)}
    (h : Runs (calm target) t (ShmRegion.create_exclusive target n size).run w result w') :
    (SameRegions w w' ∧ result = .ok none ∧ w.names n ≠ none) ∨
      ∃ u r, Vacated target w n u ∧ result = .ok (some r) ∧ r.name = n ∧ r.len = size ∧
        CreatedRegion u r [] w' := by
  rcases runs_bind_except h with ⟨o, u, hcreate, hrest⟩ | ⟨e, hcreate, rfl⟩
  · rcases try_create_calm hcreate with ⟨hu, ho, htaken⟩ | ⟨r, ho, hn, hlen, hr⟩
    · obtain rfl := Except.ok.inj ho
      rcases runs_bind_except hrest with ⟨b, v, hreclaim, hagain⟩ | ⟨e, hreclaim, -⟩
      · rcases reclaim_calm hreclaim with ⟨hv, hb⟩ | ⟨hb, hfree, hv⟩
        · obtain rfl := Except.ok.inj hb
          obtain ⟨rfl, rfl⟩ := Runs.done_iff.mp hagain
          exact .inl ⟨hu.trans hv, rfl, htaken⟩
        · obtain rfl := Except.ok.inj hb
          rcases try_create_calm hagain with ⟨-, -, htaken'⟩ | ⟨r, rfl, hn, hlen, hr⟩
          · exact absurd hfree htaken'
          · exact .inr ⟨v, r, hv.of_trans hu, rfl, hn, hlen, hr⟩
      · rcases reclaim_calm hreclaim with ⟨-, hb⟩ | ⟨hb, -⟩ <;> cases hb
    · obtain rfl := Except.ok.inj ho
      obtain ⟨rfl, rfl⟩ := Runs.done_iff.mp hrest
      exact .inr ⟨_, r, .of_same (.refl _) (hn ▸ hr.free), rfl, hn, hlen, hr⟩
  · rcases try_create_calm hcreate with ⟨-, he, -⟩ | ⟨r, he, -⟩ <;> cases he

/-! ### The search -/

/-- The name of a generation can be made up, and is taken. -/
def Taken (name_for : ℕ → Option String) (w : World) (g : ℕ) : Prop :=
  ∃ n, name_for g = some n ∧ w.names n ≠ none

/-- The generations that were tried in vain are taken, and nothing has happened to them. -/
theorem create_overflow_from_calm {name_for : ℕ → Option String} {data : List UInt8}
    {remaining generation : ℕ} {last_name : String}
    {result : Except SlotBusError (OverflowRegion × UInt8)}
    (h : Runs (calm target) t (ShmRegion.create_overflow_from target name_for data
          remaining generation last_name).run w result w') :
    (SameRegions w w' ∧ (∃ e, result = .error e) ∧
        ∀ k, generation ≤ k → k < generation + remaining → Taken name_for w k) ∨
      ∃ u r g n, name_for g = some n ∧ Vacated target w n u ∧ generation ≤ g ∧
        g < generation + remaining ∧ (∀ k, generation ≤ k → k < g → Taken name_for w k) ∧
        r.name = n ∧ result = .ok (r, UInt8.ofNat (g + 1)) ∧
        r.len = ShmRegion.overflow_size_for data.length ∧ CreatedRegion u r data w' := by
  induction remaining generalizing w generation last_name with
  | zero =>
      obtain ⟨rfl, rfl⟩ := Runs.done_iff.mp h
      exact .inl ⟨.refl _, ⟨_, rfl⟩, fun k h1 h2 => by omega⟩
  | succ remaining ih =>
      unfold ShmRegion.create_overflow_from at h
      cases hn : name_for generation with
      | none =>
          -- making up the name panics
          rw [hn] at h
          obtain ⟨c, x, u, hx, hk⟩ := Runs.act_iff.mp h
          exact Empty.elim x
      | some n =>
      rw [hn] at h
      have hcreate : Runs (calm target) t (ShmRegion.create_exclusive target n
        (ShmRegion.overflow_size_for data.length) >>= _).run w result w' := h
      rcases runs_bind_except hcreate with ⟨o, u, hexclusive, hrest⟩ | ⟨e, hexclusive, -⟩
      · rcases create_exclusive_calm hexclusive with
          ⟨hu, ho, htaken⟩ | ⟨v, r, hv, ho, hname, hlen, hr⟩
        · obtain rfl := Except.ok.inj ho
          -- this generation and those before the next hit are taken
          have htaken' : ∀ {g}, (∀ k, generation + 1 ≤ k → k < g → Taken name_for u k) →
              ∀ k, generation ≤ k → k < g → Taken name_for w k := fun hg k hle hlt => by
            rcases Nat.eq_or_lt_of_le hle with rfl | hlt'
            · exact ⟨n, hn, htaken⟩
            · obtain ⟨m, hm, hused⟩ := hg k hlt' hlt
              exact ⟨m, hm, hu.names ▸ hused⟩
          rcases ih hrest with ⟨hw', he, hall⟩ | ⟨v, r, g, m, hm, hv, hle, hlt, hall, hrest⟩
          · exact .inl ⟨hu.trans hw', he, fun k hle hlt => htaken' hall k hle (by omega)⟩
          · exact .inr ⟨v, r, g, m, hm, hv.of_trans hu, by omega, by omega, htaken' hall, hrest⟩
        · obtain rfl := Except.ok.inj ho
          have hfits : data.length ≤ r.len := by
            rw [hlen]
            exact Tenancy.le_overflow_size_for _
          rcases runs_bind_except hrest with ⟨r', u', hfill, hdone⟩ | ⟨e, hfill, -⟩
          · obtain ⟨hr', hcreated⟩ := fill_overflow_runs hfits hr (hfill.mono calm_exec)
            obtain rfl := Except.ok.inj hr'
            obtain ⟨rfl, rfl⟩ := Runs.done_iff.mp hdone
            exact .inr ⟨v, r', generation, n, hn, hv, le_rfl, by omega, fun k h1 h2 => by omega,
              hname, rfl, hlen, hcreated⟩
          · cases (fill_overflow_runs hfits hr (hfill.mono calm_exec)).1
      · rcases create_exclusive_calm hexclusive with ⟨-, he, -⟩ | ⟨_, _, -, he, -⟩ <;> cases he

/-! ### The first generation that can be had -/

/-- A new region under the first generation that can be had, with the data where a reader looks for
it. -/
structure FirstFree (target : Target) (name_for : ℕ → String) (data : List UInt8) (w w' : World)
    (r : OverflowRegion) (marker : UInt8) (g : ℕ) : Prop where
  generation_le : g ≤ MAX_OVERFLOW_GENERATION
  lower_taken : ∀ k < g, w.names (name_for k) ≠ none
  available : w.names (name_for g) = none ∨
    target = .windows ∧ ∃ s, w.names (name_for g) = some s ∧ (w.segments s).orphan = true
  name_eq : r.name = name_for g
  marker_eq : marker.toNat = g + 1
  decoded : overflow_generation marker = some g
  new : ∀ n s, w.names n = some s → s ≠ r.segment
  named : w'.names r.name = some r.segment
  len : data.length ≤ r.len ∧ (w'.segments r.segment).len = r.len
  content : read (w'.segments r.segment).bytes 0 data.length = data
  reads_back : Returns target (ShmRegion.read_overflow (name_for g) data.length).run w' (.ok data)

/-- The regions that were there keep their size and content, and their names unless they are orphans
on Windows. -/
def RegionsKept (target : Target) (w w' : World) : Prop :=
  ∀ n s, w.names n = some s → w'.segments s = w.segments s ∧
    (w'.names n = some s ∨ target = .windows ∧ (w.segments s).orphan = true)

theorem marker_of_generation {g : ℕ} (hg : g ≤ MAX_OVERFLOW_GENERATION) :
    (UInt8.ofNat (g + 1)).toNat = g + 1 := by
  simp only [MAX_OVERFLOW_GENERATION] at hg
  rw [UInt8.toNat_ofNat']
  omega

theorem CreatedRegion.firstFree {u : World} {name_for : ℕ → String} {data : List UInt8}
    {r : OverflowRegion} {g : ℕ} (hr : CreatedRegion u r data w')
    (hu : Vacated target w (name_for g) u) (hfresh : ∀ n s, w.names n = some s → s < w.next_segment)
    (hg : g ≤ MAX_OVERFLOW_GENERATION) (hlower : ∀ k < g, w.names (name_for k) ≠ none)
    (hname : r.name = name_for g) (hlen : r.len = ShmRegion.overflow_size_for data.length) :
    FirstFree target name_for data w w' r (UInt8.ofNat (g + 1)) g := by
  have hfits : data.length ≤ r.len := by
    rw [hlen]
    exact Tenancy.le_overflow_size_for _
  have hsegment : w'.segments r.segment = (⟨r.len, fun _ => 0, false⟩ : Segment).fill data := by
    rw [hr.segments, Function.update_self]
  have hnamed : w'.names r.name = some r.segment := by rw [hr.names, Function.update_self]
  have hcontent : read (w'.segments r.segment).bytes 0 data.length = data := by
    rw [hsegment]
    exact read_write_same _ 0 data
  have hread : ∀ {v result w''}, Runs (machine target) v
      (ShmRegion.read_overflow (name_for g) data.length).run w' result w'' → result = .ok data := by
    intro v result w'' hrun
    rw [hname] at hnamed
    rcases (read_overflow_runs hrun).2 with ⟨s, hs, -, rfl⟩ | ⟨hshort, -⟩
    · rw [hnamed] at hs
      rw [← Option.some.inj hs, hcontent]
    · have hlt := hshort _ hnamed
      rw [hsegment] at hlt
      exact absurd hlt (by simp only [Segment.fill]; omega)
  refine ⟨hg, hlower, hu.cause, hname, marker_of_generation hg, ?_, fun n s hs => ?_, hnamed,
    ⟨hfits, by rw [hsegment]; rfl⟩, hcontent, fun v => ⟨?_, fun result w'' => hread⟩⟩
  · rw [overflow_generation, marker_of_generation hg, if_neg (by omega), Nat.add_sub_cancel]
  · have hlt := hfresh n s hs
    rw [hr.segment, hu.next_segment]
    omega
  · -- the read comes to an end, and then it can only give the data
    obtain ⟨result, w'', hrun⟩ := run_of_reads target v
      (read_overflow_confined (fun _ => trivial) (fun _ _ => trivial) (name_for g) data.length) w'
    exact ⟨w'', hread hrun ▸ hrun⟩

theorem CreatedRegion.kept {u : World} {n : String} {data : List UInt8} {r : OverflowRegion}
    (hr : CreatedRegion u r data w') (hu : Vacated target w n u) (hname : r.name = n)
    (hfresh : ∀ n s, w.names n = some s → s < w.next_segment) : RegionsKept target w w' := by
  intro m s hs
  have hlt := hfresh m s hs
  constructor
  · rw [hr.segments, hr.segment, hu.next_segment, Function.update_of_ne (by omega), hu.segments]
  · by_cases hm : m = n
    · subst hm
      rcases hu.cause with hnone | ⟨hwindows, s', hs', horphan⟩
      · rw [hs] at hnone
        cases hnone
      · rw [hs] at hs'
        exact .inr ⟨hwindows, Option.some.inj hs' ▸ horphan⟩
    · rw [hr.names, hname, Function.update_of_ne hm, hu.names, Function.update_of_ne hm]
      exact .inl hs

/-- The actions of a creator, none of which can block. -/
def Action.on_regions : Action → Prop
  | .shm_create _ _ | .shm_reclaim _ | .shm_write _ _ | .shm_drop _ => True
  | _ => False

theorem calm_performs (a : Action) (ha : a.on_regions) (w : World) :
    ∃ c r w', (calm target).exec t a c w = some (r, w') := by
  have heffect : (effect target ⟨false, ""⟩ w a).isSome = true := by
    cases a with
    | shm_create n size =>
        simp only [effect, Bool.false_eq_true, if_false]
        split <;> rfl
    | shm_reclaim n =>
        simp only [effect]
        split
        · split <;> rfl
        · rfl
    | shm_write r data => rfl
    | shm_drop r => rfl
    | _ => exact ha.elim
  obtain ⟨x, hx⟩ := Option.isSome_iff_exists.mp heffect
  refine ⟨⟨false, ""⟩, x.1, { x.2 with log := ⟨t, a, x.1⟩ :: x.2.log }, ?_⟩
  simp only [calm, Bool.and_false, Bool.false_eq_true, if_false, machine, hx]
  rfl

theorem try_create_confined (n : String) (size : ℕ) :
    (ShmRegion.try_create_exclusive n size).run.Confined Action.on_regions := by
  refine ⟨trivial, fun r => ?_⟩
  cases r <;> trivial

theorem create_exclusive_confined (n : String) (size : ℕ) :
    (ShmRegion.create_exclusive target n size).run.Confined Action.on_regions := by
  refine confined_bind (try_create_confined n size) fun o => ?_
  cases o with
  | some r => trivial
  | none =>
      refine confined_bind ?_ fun b => ?_
      · unfold ShmRegion.reclaim_orphaned_backing_file
        cases target with
        | windows => exact ⟨trivial, fun _ => trivial⟩
        | linux => trivial
        | macos => trivial
      · cases b with
        | false => trivial
        | true => exact try_create_confined n size

theorem fill_overflow_confined (r : OverflowRegion) (n : String) (data : List UInt8) :
    (ShmRegion.fill_overflow r n data).run.Confined Action.on_regions := by
  unfold ShmRegion.fill_overflow
  split
  · exact ⟨trivial, fun _ => trivial⟩
  · exact ⟨trivial, fun _ => trivial⟩

/-- The creator panics only where it has no name for a generation. -/
theorem create_overflow_from_confined {allowed : Action → Prop} {name_for : ℕ → Option String}
    (hregions : ∀ a : Action, a.on_regions → allowed a)
    (hpanic : (∃ g, name_for g = none) → allowed .panic) (data : List UInt8)
    (remaining generation : ℕ) (last_name : String) :
    (ShmRegion.create_overflow_from target name_for data remaining generation
      last_name).run.Confined allowed := by
  induction remaining generalizing generation last_name with
  | zero => trivial
  | succ remaining ih =>
      unfold ShmRegion.create_overflow_from
      cases hn : name_for generation with
      | none => exact ⟨hpanic ⟨generation, hn⟩, fun r => Empty.elim r⟩
      | some n =>
          show Program.Confined _ (ExceptT.run (ShmRegion.create_exclusive target n _ >>= _))
          refine confined_bind ((create_exclusive_confined _ _).mono hregions) fun o => ?_
          cases o with
          | none => exact ih _ _
          | some r =>
              exact confined_bind ((fill_overflow_confined r _ data).mono hregions) fun _ => trivial

/-- **`create_overflow_fresh` takes the first generation that can be had**, and disturbs no region
that anybody holds. -/
theorem create_overflow_fresh_first_free (target : Target) (t : Thread) (name_for : ℕ → String)
    (data : List UInt8) {w : World} (hfresh : ∀ n s, w.names n = some s → s < w.next_segment) :
    (∃ result w', Runs (calm target) t
      (ShmRegion.create_overflow_fresh target (fun g => some (name_for g)) data).run w result w') ∧
    ∀ result w', Runs (calm target) t
        (ShmRegion.create_overflow_fresh target (fun g => some (name_for g)) data).run w result w' →
      RegionsKept target w w' ∧
        match result with
        | .ok (r, marker) => ∃ g, FirstFree target name_for data w w' r marker g
        | .error _ =>
            w'.names = w.names ∧ ∀ g ≤ MAX_OVERFLOW_GENERATION, w.names (name_for g) ≠ none := by
  have hconfined :
      (ShmRegion.create_overflow_fresh target (fun g => some (name_for g)) data).run.Confined
      Action.on_regions :=
    create_overflow_from_confined (fun _ => id)
      (fun ⟨g, hg⟩ => Option.some_ne_none _ hg |>.elim) data _ _ _
  refine ⟨Runs.exists_of_confined hconfined calm_performs w, fun result w' h => ?_⟩
  have htaken_iff : ∀ {k}, Taken (fun g => some (name_for g)) w k →
      w.names (name_for k) ≠ none := by
    intro k ⟨n, hn, hused⟩
    exact Option.some.inj hn ▸ hused
  rcases create_overflow_from_calm h with
    ⟨hsame, ⟨e, rfl⟩, htaken⟩ | ⟨u, r, g, n, hn, hu, -, hg, hlower, hname, rfl, hlen, hr⟩
  · refine ⟨fun n s hs => ⟨congrFun hsame.segments s, .inl (hsame.names ▸ hs)⟩,
      hsame.names, fun g hg => ?_⟩
    exact htaken_iff (htaken g (Nat.zero_le g) (by omega))
  · obtain rfl := Option.some.inj hn
    have hlower' := fun k hk => htaken_iff (hlower k (Nat.zero_le k) hk)
    exact ⟨hr.kept hu hname hfresh, g, hr.firstFree hu hfresh (by omega) hlower' hname hlen⟩

/-! ### A small host -/

/-- The names of the witness. -/
def letter_names (g : ℕ) : String := String.ofList (List.replicate (g + 1) 'a')

/-- An orphan has the name of generation 0. -/
def orphaned_world : World :=
  .start (fun _ => 0) (fun n => if n = letter_names 0 then some 0 else none)
    (fun _ => ⟨4096, fun _ => 0, true⟩) 1

theorem create_overflow_fresh_first_free_small :
    ∃ r w', Runs (calm .linux) .watcher
        (ShmRegion.create_overflow_fresh .linux (fun g => some (letter_names g)) [7]).run
          orphaned_world (.ok (r, 2)) w' ∧
      ∃ g, FirstFree .linux letter_names [7] orphaned_world w' r 2 g := by
  obtain ⟨w', hrun⟩ := Machine.exists_run (M := calm .linux) (t := .watcher) (c := ⟨false, ""⟩)
    (p := (ShmRegion.create_overflow_fresh .linux (fun g => some (letter_names g)) [7]).run)
    (s := orphaned_world) (v := .ok (⟨"aa", 1, 4096⟩, 2)) (by decide +kernel)
  have hfresh : ∀ n s, orphaned_world.names n = some s → s < orphaned_world.next_segment := by
    intro n s hs
    simp only [orphaned_world, World.start] at hs ⊢
    split at hs
    · exact Option.some.inj hs ▸ Nat.one_pos
    · cases hs
  exact ⟨_, w', hrun,
    ((create_overflow_fresh_first_free .linux .watcher letter_names [7] hfresh).2 _ w' hrun).2⟩

/-- **On Windows the name of an orphan is used again**, although a later generation is free. -/
theorem orphan_is_reused :
    ∃ r w', Runs (calm .windows) .watcher
        (ShmRegion.create_overflow_fresh .windows (fun g => some (letter_names g)) [7]).run
          orphaned_world
        (.ok (r, 1)) w' ∧
      orphaned_world.names (letter_names 0) ≠ none ∧ orphaned_world.names (letter_names 1) = none ∧
        w'.names (letter_names 0) = some 1 := by
  obtain ⟨⟨v, w'⟩, hrun, hobs⟩ :=
    Option.map_eq_some_iff.mp (show ((calm .windows).simulate .watcher ⟨false, ""⟩
      (ShmRegion.create_overflow_fresh .windows (fun g => some (letter_names g)) [7]).run
        orphaned_world).map
        (fun x => (x.1, x.2.names (letter_names 0))) = some (.ok (⟨"a", 1, 4096⟩, 1), some 1)
          from by decide +kernel)
  obtain ⟨hv, hname⟩ := Prod.mk.inj hobs
  dsimp only at hv hname
  subst hv
  exact ⟨_, w', Machine.simulate_runs hrun, by decide +kernel, by decide +kernel, hname⟩

end SlotBus
