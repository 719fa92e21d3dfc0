import SlotBus.Isolation

/-!
# Overflow regions and their generations

`create_overflow_fresh` takes the lowest generation whose name is free at that moment.  A marker
therefore identifies a payload only as long as its region is held: once it is dropped, the next
payload gets the same name again.

* `create_overflow_runs` — what a call does, exactly;
* `OverflowRun` — the runs of creates, drops and reads on one half of a slot;
* `read_exact_iff` — **when** a reader that comes late gets its own payload or an error;
* `reader_is_handed_a_later_payload` — a run in which it gets neither.
-/

namespace SlotBus

open ByteMemory AtomicProgram AtomicProgram.Program

/-! ### One call -/

variable {target : Target} {t : Thread} {w w' : World}

/-- Orphaned names have been reclaimed, and nothing else has changed among the named regions. -/
structure Reclaimed (w w' : World) : Prop where
  segments : w'.segments = w.segments
  next_segment : w'.next_segment = w.next_segment
  names : ∀ n, w'.names n = w.names n ∨
    ∃ s, w.names n = some s ∧ (w.segments s).orphan = true ∧ w'.names n = none

theorem Reclaimed.refl (w : World) : Reclaimed w w := ⟨rfl, rfl, fun _ => .inl rfl⟩

theorem Reclaimed.trans {w'' : World} (h : Reclaimed w w') (h' : Reclaimed w' w'') :
    Reclaimed w w'' := by
  refine ⟨h'.segments.trans h.segments, h'.next_segment.trans h.next_segment, fun n => ?_⟩
  rcases h.names n with h1 | ⟨s, h1, ho, h1'⟩ <;> rcases h'.names n with h2 | ⟨u, h2, ho', h2'⟩
  · exact .inl (h2.trans h1)
  · exact .inr ⟨u, h1 ▸ h2, h.segments ▸ ho', h2'⟩
  · exact .inr ⟨s, h1, ho, h2.trans h1'⟩
  · exact .inr ⟨s, h1, ho, h2'⟩

/-- A region with these bytes has been created under a free name. -/
structure CreatedRegion (w : World) (r : OverflowRegion) (data : List UInt8) (w' : World) :
    Prop where
  free : w.names r.name = none
  segment : r.segment = w.next_segment
  next_segment : w'.next_segment = w.next_segment + 1
  names : w'.names = Function.update w.names r.name (some r.segment)
  segments : w'.segments =
    Function.update w.segments r.segment ((⟨r.len, fun _ => 0, false⟩ : Segment).fill data)

section Bind

variable {α β : Type} {p : Fallible α} {f : α → Fallible β} {M : Machine bus Thread World Choice}
  {result : Except SlotBusError β}

/-- A run of two programs that may fail. -/
theorem runs_bind_except (h : Runs M t (p >>= f).run w result w') :
    (∃ v u, Runs M t p.run w (.ok v) u ∧ Runs M t (f v).run u result w') ∨
      ∃ e, Runs M t p.run w (.error e) w' ∧ result = .error e := by
  obtain ⟨x, u, hp, hf⟩ := Runs.bind_iff.mp h
  cases x with
  | ok v => exact .inl ⟨v, u, hp, hf⟩
  | error e =>
      obtain ⟨rfl, rfl⟩ := Runs.done_iff.mp hf
      exact .inr ⟨e, hp, rfl⟩

theorem runs_lift {q : Program bus α} {v : α}
    (h : Runs M t (liftM q : Fallible α).run w (.ok v) w') : Runs M t q w v w' := by
  obtain ⟨u, s, hq, hdone⟩ := Runs.bind_iff.mp h
  obtain ⟨heq, rfl⟩ := Runs.done_iff.mp hdone
  exact Except.ok.inj heq ▸ hq

theorem runs_bind_ok {b : β} (h : Runs M t (p >>= f).run w (.ok b) w') :
    ∃ v u, Runs M t p.run w (.ok v) u ∧ Runs M t (f v).run u (.ok b) w' := by
  rcases runs_bind_except h with hok | ⟨e, -, he⟩
  · exact hok
  · cases he

end Bind

theorem try_create_runs {n : String} {size : ℕ}
    {result : Except SlotBusError (Option OverflowRegion)}
    (h : Runs (machine target) t (ShmRegion.try_create_exclusive n size).run w result w') :
    (Reclaimed w w' ∧ (result = .ok none ∧ w.names n ≠ none ∨ ∃ e, result = .error e)) ∨
      ∃ r, result = .ok (some r) ∧ r.name = n ∧ r.len = size ∧ CreatedRegion w r [] w' := by
  obtain ⟨c, x, u, hx, hk⟩ := Runs.act_iff.mp h
  obtain ⟨v, hv, rfl⟩ := exec_iff.mp hx
  simp only [effect] at hv
  split at hv
  · obtain ⟨rfl, rfl⟩ := Prod.mk.inj (Option.some.inj hv)
    obtain ⟨rfl, rfl⟩ := Runs.done_iff.mp hk
    exact .inl ⟨⟨rfl, rfl, fun _ => .inl rfl⟩, .inr ⟨_, rfl⟩⟩
  split at hv
  · rename_i htaken
    obtain ⟨rfl, rfl⟩ := Prod.mk.inj (Option.some.inj hv)
    obtain ⟨rfl, rfl⟩ := Runs.done_iff.mp hk
    refine .inl ⟨⟨rfl, rfl, fun _ => .inl rfl⟩, .inl ⟨rfl, fun hnone => ?_⟩⟩
    rw [hnone] at htaken
    cases htaken
  · rename_i hfree
    obtain ⟨rfl, rfl⟩ := Prod.mk.inj (Option.some.inj hv)
    obtain ⟨rfl, rfl⟩ := Runs.done_iff.mp hk
    refine .inr ⟨_, rfl, rfl, rfl, by simpa using hfree, rfl, rfl, rfl, ?_⟩
    simp only [Segment.fill]
    congr 1

theorem reclaim_runs {n : String} {result : Except SlotBusError Bool}
    (h : Runs (machine target) t (ShmRegion.reclaim_orphaned_backing_file target n).run
      w result w') :
    Reclaimed w w' ∧ ∃ b, result = .ok b := by
  unfold ShmRegion.reclaim_orphaned_backing_file at h
  split at h
  · obtain ⟨c, x, u, hx, hk⟩ := Runs.act_iff.mp h
    obtain ⟨rfl, rfl⟩ := Runs.done_iff.mp hk
    refine ⟨?_, x, rfl⟩
    have hch := exec_changes hx
    refine ⟨funext fun s => ?_, ?_, fun m => ?_⟩
    · rcases hch.segments s with h | ⟨-, _, _, h⟩ | ⟨_, _, h, -⟩
      · exact h
      · cases h
      · cases h
    · rcases hch.next_segment with h | ⟨-, _, _, h⟩
      · exact h
      · cases h
    · rcases hch.names m with h | ⟨hnone, hrel⟩ | ⟨_, h, -⟩
      · exact .inl h
      · cases hrel with
        | reclaim hs ho => exact .inr ⟨_, hs, ho, hnone⟩
      · cases h
  all_goals
    obtain ⟨rfl, rfl⟩ := Runs.done_iff.mp h
    exact ⟨.refl _, _, rfl⟩

theorem create_exclusive_runs {n : String} {size : ℕ}
    {result : Except SlotBusError (Option OverflowRegion)}
    (h : Runs (machine target) t (ShmRegion.create_exclusive target n size).run w result w') :
    (Reclaimed w w' ∧ (result = .ok none ∧ w.names n ≠ none ∨ ∃ e, result = .error e)) ∨
      ∃ u r, Reclaimed w u ∧ result = .ok (some r) ∧ r.name = n ∧ r.len = size ∧
        CreatedRegion u r [] w' := by
  rcases runs_bind_except h with ⟨o, u, hcreate, hrest⟩ | ⟨e, hcreate, rfl⟩
  · rcases try_create_runs hcreate with ⟨hu, ⟨ho, htaken⟩ | ⟨e, ho⟩⟩ | ⟨r, ho, hn, hlen, hr⟩
    · obtain rfl := Except.ok.inj ho
      rcases runs_bind_except hrest with ⟨b, v, hreclaim, hagain⟩ | ⟨e, hreclaim, rfl⟩
      · have hv := (reclaim_runs hreclaim).1
        cases b with
        | false =>
            obtain ⟨rfl, rfl⟩ := Runs.done_iff.mp hagain
            exact .inl ⟨hu.trans hv, .inl ⟨rfl, htaken⟩⟩
        | true =>
            rcases try_create_runs hagain with ⟨hw', ⟨rfl, -⟩ | ⟨e, rfl⟩⟩ | ⟨r, rfl, hn, hlen, hr⟩
            · exact .inl ⟨(hu.trans hv).trans hw', .inl ⟨rfl, htaken⟩⟩
            · exact .inl ⟨(hu.trans hv).trans hw', .inr ⟨e, rfl⟩⟩
            · exact .inr ⟨v, r, hu.trans hv, rfl, hn, hlen, hr⟩
      · obtain ⟨_, _, hb⟩ := reclaim_runs hreclaim
        cases hb
    · cases ho
    · obtain rfl := Except.ok.inj ho
      obtain ⟨rfl, rfl⟩ := Runs.done_iff.mp hrest
      exact .inr ⟨w, r, .refl _, rfl, hn, hlen, hr⟩
  · rcases try_create_runs hcreate with ⟨hw', -⟩ | ⟨r, hr, -⟩
    · exact .inl ⟨hw', .inr ⟨e, rfl⟩⟩
    · cases hr

theorem fill_overflow_runs {r : OverflowRegion} {n : String} {data : List UInt8} {u : World}
    {result : Except SlotBusError OverflowRegion} (hlen : data.length ≤ r.len)
    (hr : CreatedRegion u r [] w)
    (h : Runs (machine target) t (ShmRegion.fill_overflow r n data).run w result w') :
    result = .ok r ∧ CreatedRegion u r data w' := by
  unfold ShmRegion.fill_overflow at h
  rw [if_neg (by omega)] at h
  obtain ⟨c, x, v, hx, hk⟩ := Runs.act_iff.mp h
  obtain ⟨rfl, rfl⟩ := Runs.done_iff.mp hk
  clear h hk
  obtain rfl := exec_shm_write hx
  refine ⟨rfl, hr.free, hr.segment, hr.next_segment, hr.names, ?_⟩
  have hzero : ((⟨r.len, fun _ => 0, false⟩ : Segment).fill []).fill data =
      (⟨r.len, fun _ => 0, false⟩ : Segment).fill data := by
    simp only [Segment.fill, write_nil]
  rw [hr.segments, Function.update_self, Function.update_idem, hzero]

/-- The generations that were tried in vain are all taken. -/
theorem create_overflow_from_runs {name_for : ℕ → Option String} {data : List UInt8}
    {remaining generation : ℕ} {last_name : String}
    {result : Except SlotBusError (OverflowRegion × UInt8)}
    (h : Runs (machine target) t
      (ShmRegion.create_overflow_from target name_for data remaining generation last_name).run
        w result w') :
    (Reclaimed w w' ∧ ∃ e, result = .error e) ∨
      ∃ u r g, Reclaimed w u ∧ generation ≤ g ∧ g < generation + remaining ∧
        name_for g = some r.name ∧ result = .ok (r, UInt8.ofNat (g + 1)) ∧
        r.len = ShmRegion.overflow_size_for data.length ∧ CreatedRegion u r data w' := by
  induction remaining generalizing w generation last_name with
  | zero =>
      obtain ⟨rfl, rfl⟩ := Runs.done_iff.mp h
      exact .inl ⟨.refl _, _, rfl⟩
  | succ remaining ih =>
      unfold ShmRegion.create_overflow_from at h
      cases hn : name_for generation with
      | none =>
          rw [hn] at h
          obtain ⟨c, x, u, hx, hk⟩ := Runs.act_iff.mp h
          exact Empty.elim x
      | some n =>
          rw [hn] at h
          have hcreate : Runs (machine target) t
            (ShmRegion.create_exclusive target n (ShmRegion.overflow_size_for data.length) >>=
              _).run w
              result w' := h
          rcases runs_bind_except hcreate with ⟨o, u, hexclusive, hrest⟩ | ⟨e, hexclusive, rfl⟩
          · rcases create_exclusive_runs hexclusive with ⟨hu, ⟨ho, -⟩ | ⟨e, ho⟩⟩ | ⟨u', r,
              hu', ho, hname, hlen, hr⟩
            · obtain rfl := Except.ok.inj ho
              rcases ih hrest with ⟨hw', he⟩ | ⟨v, r, g, hv, hle, hlt, hrest⟩
              · exact .inl ⟨hu.trans hw', he⟩
              · exact .inr ⟨v, r, g, hu.trans hv, by omega, by omega, hrest⟩
            · cases ho
            · obtain rfl := Except.ok.inj ho
              have hfits : data.length ≤ r.len := by
                rw [hlen]
                exact Tenancy.le_overflow_size_for _
              rcases runs_bind_except hrest with ⟨r', v, hfill, hdone⟩ | ⟨e, hfill, -⟩
              · obtain ⟨hr', hcreated⟩ := fill_overflow_runs hfits hr hfill
                obtain rfl := Except.ok.inj hr'
                obtain ⟨rfl, rfl⟩ := Runs.done_iff.mp hdone
                exact .inr ⟨u', r', generation, hu', le_rfl, by omega, by
                  rw [hn, hname], rfl, hlen, hcreated⟩
              · cases (fill_overflow_runs hfits hr hfill).1
          · rcases create_exclusive_runs hexclusive with ⟨hw', -⟩ | ⟨_, _, -, ho, -⟩
            · exact .inl ⟨hw', e, rfl⟩
            · cases ho

/-- **What `create_overflow_fresh` does.**  It fails, or it creates one region under a name that was
free; orphaned names apart, it touches nothing else. -/
theorem create_overflow_runs {name_for : ℕ → Option String} {data : List UInt8}
    {result : Except SlotBusError (OverflowRegion × UInt8)}
    (h : Runs (machine target) t (ShmRegion.create_overflow_fresh target name_for data).run
      w result w') :
    (Reclaimed w w' ∧ ∃ e, result = .error e) ∨
      ∃ u r g, Reclaimed w u ∧ g ≤ MAX_OVERFLOW_GENERATION ∧ name_for g = some r.name ∧
        result = .ok (r, UInt8.ofNat (g + 1)) ∧ r.len = ShmRegion.overflow_size_for data.length ∧
        CreatedRegion u r data w' := by
  rcases create_overflow_from_runs h with herr | ⟨u, r, g, hu, -, hg, hrest⟩
  · exact .inl herr
  · exact .inr ⟨u, r, g, hu, by omega, hrest⟩

/-- **What `read_overflow` does.**  It changes nothing, and fails unless the name stands for a
region that is large enough. -/
theorem read_overflow_runs {n : String} {len : ℕ} {result : Except SlotBusError (List UInt8)}
    (h : Runs (machine target) t (ShmRegion.read_overflow n len).run w result w') :
    (w'.names = w.names ∧ w'.segments = w.segments ∧ w'.next_segment = w.next_segment) ∧
      ((∃ s, w.names n = some s ∧ len ≤ (w.segments s).len ∧
          result = .ok (read (w.segments s).bytes 0 len)) ∨
        (∀ s, w.names n = some s → (w.segments s).len < len) ∧ ∃ e, result = .error e) := by
  obtain ⟨c, x, u, hx, hk⟩ := Runs.act_iff.mp h
  obtain ⟨v, hv, rfl⟩ := exec_iff.mp hx
  simp only [effect] at hv
  cases hn : w.names n with
  | none =>
      rw [hn] at hv
      obtain ⟨rfl, rfl⟩ := Prod.mk.inj (Option.some.inj hv)
      obtain ⟨rfl, rfl⟩ := Runs.done_iff.mp hk
      exact ⟨⟨rfl, rfl, rfl⟩, .inr ⟨fun s hs => absurd hs (Option.some_ne_none s).symm, _, rfl⟩⟩
  | some s =>
      rw [hn] at hv
      obtain ⟨rfl, rfl⟩ := Prod.mk.inj (Option.some.inj hv)
      by_cases hlen : (w.segments s).len < len
      · have hk' :
            Runs (machine target) t (ExceptT.run (if (w.segments s).len < len then _ else _)) _
          result w' := hk
        rw [if_pos hlen] at hk'
        obtain ⟨rfl, rfl⟩ := Runs.done_iff.mp hk'
        refine ⟨⟨rfl, rfl, rfl⟩, .inr ⟨fun s' hs => ?_, _, rfl⟩⟩
        exact Option.some.inj hs ▸ hlen
      · have hk' :
            Runs (machine target) t (ExceptT.run (if (w.segments s).len < len then _ else _)) _
          result w' := hk
        rw [if_neg hlen] at hk'
        obtain ⟨c, y, u, hy, hdone⟩ := Runs.act_iff.mp hk'
        obtain ⟨v, hv, rfl⟩ := exec_iff.mp hy
        obtain ⟨rfl, rfl⟩ := Prod.mk.inj (Option.some.inj hv)
        obtain ⟨rfl, rfl⟩ := Runs.done_iff.mp hdone
        exact ⟨⟨rfl, rfl, rfl⟩, .inl ⟨s, rfl, by omega, rfl⟩⟩

/-! ### Runs of creates, drops and reads -/

/-- A payload that was put into an overflow region. -/
structure Payload where
  data : List UInt8
  region : OverflowRegion
  marker : UInt8

/-- The bytes of the region: the payload, then zeros up to the mapping granularity. -/
def Payload.content (p : Payload) : List UInt8 :=
  p.data ++ List.replicate (ShmRegion.overflow_size_for p.data.length - p.data.length) 0

/-- Any sequence of `create_overflow_fresh` calls, drops of the handles they returned, and reads.
The payloads are those created so far, and `held` are the handles that have not been dropped. -/
inductive OverflowRun (target : Target) (name_for : ℕ → Option String) :
    World → List Payload → Set OverflowRegion → Prop where
  | start (w : World) : OverflowRun target name_for w [] ∅
  | create {w w' : World} {payloads : List Payload} {held : Set OverflowRegion} {t : Thread}
      {data : List UInt8} {r : OverflowRegion} {marker : UInt8}
      (h : OverflowRun target name_for w payloads held)
      (hrun : Runs (machine target) t (ShmRegion.create_overflow_fresh target name_for data).run w
        (.ok (r, marker)) w') :
      OverflowRun target name_for w' (⟨data, r, marker⟩ :: payloads) (insert r held)
  | create_failed {w w' : World} {payloads : List Payload} {held : Set OverflowRegion} {t : Thread}
      {data : List UInt8} {e : SlotBusError} (h : OverflowRun target name_for w payloads held)
      (hrun : Runs (machine target) t (ShmRegion.create_overflow_fresh target name_for data).run w
        (.error e) w') : OverflowRun target name_for w' payloads held
  | drop {w w' : World} {payloads : List Payload} {held : Set OverflowRegion} {t : Thread}
      {r : OverflowRegion} (h : OverflowRun target name_for w payloads held) (hr : r ∈ held)
      (hrun : Runs (machine target) t (shm_drop r) w () w') :
      OverflowRun target name_for w' payloads (held \ {r})
  | read {w w' : World} {payloads : List Payload} {held : Set OverflowRegion}
      {t : Thread} {n : String} {len : ℕ} {result : Except SlotBusError (List UInt8)}
      (h : OverflowRun target name_for w payloads held)
      (hrun : Runs (machine target) t (ShmRegion.read_overflow n len).run w result w') :
      OverflowRun target name_for w' payloads held

/-- The invariant of these runs: every payload is in its own segment, and its name stands for a
payload that is held, or for nothing. -/
structure Tracked (name_for : ℕ → Option String) (w : World) (payloads : List Payload)
    (held : Set OverflowRegion) : Prop where
  named : ∀ p ∈ payloads, ∃ g ≤ MAX_OVERFLOW_GENERATION,
    name_for g = some p.region.name ∧ p.marker = UInt8.ofNat (g + 1)
  len : ∀ p ∈ payloads, p.region.len = ShmRegion.overflow_size_for p.data.length
  segment : ∀ p ∈ payloads, w.segments p.region.segment =
    (⟨p.region.len, fun _ => 0, false⟩ : Segment).fill p.data
  lt_next : ∀ p ∈ payloads, p.region.segment < w.next_segment
  distinct : ∀ p ∈ payloads, ∀ q ∈ payloads, p.region.segment = q.region.segment → p = q
  created : ∀ r ∈ held, ∃ p ∈ payloads, p.region = r
  live : ∀ r ∈ held, w.names r.name = some r.segment
  stands_for : ∀ p ∈ payloads, ∀ s, w.names p.region.name = some s →
    ∃ q ∈ payloads, q.region ∈ held ∧ q.region.segment = s ∧ q.region.name = p.region.name

variable {name_for : ℕ → Option String} {payloads : List Payload} {held : Set OverflowRegion}

/-- Reclaiming orphans leaves the payloads alone. -/
theorem Tracked.reclaimed (h : Tracked name_for w payloads held) (hw : Reclaimed w w') :
    Tracked name_for w' payloads held := by
  refine ⟨h.named, h.len, fun p hp => hw.segments ▸ h.segment p hp, fun p hp =>
    hw.next_segment ▸ h.lt_next p hp,
    h.distinct, h.created, fun r hr => ?_, fun p hp s hs => ?_⟩
  · rcases hw.names r.name with heq | ⟨s, hs, ho, -⟩
    · exact heq.trans (h.live r hr)
    · obtain ⟨p, hp, rfl⟩ := h.created r hr
      rw [h.live _ hr, Option.some.injEq] at hs
      subst hs
      rw [h.segment p hp] at ho
      cases ho
  · rcases hw.names p.region.name with heq | ⟨_, _, _, hnone⟩
    · exact h.stands_for p hp s (heq ▸ hs)
    · rw [hnone] at hs
      cases hs

/-- A new payload. -/
theorem Tracked.create (h : Tracked name_for w payloads held) {r : OverflowRegion}
    {data : List UInt8} {g : ℕ} (hg : g ≤ MAX_OVERFLOW_GENERATION) (hn : name_for g = some r.name)
    (hlen : r.len = ShmRegion.overflow_size_for data.length) (hr : CreatedRegion w r data w') :
    Tracked name_for w' (⟨data, r, UInt8.ofNat (g + 1)⟩ :: payloads) (insert r held) := by
  have hfresh : ∀ p ∈ payloads, p.region.segment ≠ r.segment := fun p hp => by
    have h1 := h.lt_next p hp
    have h2 := hr.segment
    omega
  have hseg : ∀ s, s ≠ r.segment → w'.segments s = w.segments s := fun s hs => by
    rw [hr.segments, Function.update_of_ne hs]
  have hnames : ∀ n, n ≠ r.name → w'.names n = w.names n := fun n hne => by
    rw [hr.names, Function.update_of_ne hne]
  have hself : w'.names r.name = some r.segment := by rw [hr.names, Function.update_self]
  refine ⟨?_, ?_, ?_, ?_, ?_, ?_, ?_, ?_⟩
  · rintro p (_ | ⟨_, hp⟩)
    · exact ⟨g, hg, hn, rfl⟩
    · exact h.named p hp
  · rintro p (_ | ⟨_, hp⟩)
    · exact hlen
    · exact h.len p hp
  · rintro p (_ | ⟨_, hp⟩)
    · rw [hr.segments, Function.update_self]
    · rw [hseg _ (hfresh p hp)]
      exact h.segment p hp
  · rintro p (_ | ⟨_, hp⟩)
    · rw [hr.next_segment, hr.segment]
      exact Nat.lt_succ_self _
    · have := h.lt_next p hp
      rw [hr.next_segment]
      omega
  · rintro p (_ | ⟨_, hp⟩) q (_ | ⟨_, hq⟩) heq
    · rfl
    · exact absurd heq.symm (hfresh q hq)
    · exact absurd heq (hfresh p hp)
    · exact h.distinct p hp q hq heq
  · rintro q (rfl | hq)
    · exact ⟨_, List.mem_cons_self, rfl⟩
    · obtain ⟨p, hp, heq⟩ := h.created q hq
      exact ⟨p, List.mem_cons_of_mem _ hp, heq⟩
  · rintro q (rfl | hq)
    · exact hself
    · -- the name of the new region was free, that of a held one was not
      have hlive := h.live q hq
      rw [hnames q.name fun heq => ?_]
      · exact hlive
      · rw [heq, hr.free] at hlive
        cases hlive
  · rintro p (_ | ⟨_, hp⟩) s hs
    · exact ⟨_, List.mem_cons_self, Set.mem_insert _ _, Option.some.inj (hself.symm.trans hs), rfl⟩
    · by_cases hname : p.region.name = r.name
      · rw [hname] at hs
        exact ⟨_, List.mem_cons_self, Set.mem_insert _ _,
          Option.some.inj (hself.symm.trans hs), hname.symm⟩
      · rw [hnames _ hname] at hs
        obtain ⟨q, hq, hheld, hqs, hqn⟩ := h.stands_for p hp s hs
        exact ⟨q, List.mem_cons_of_mem _ hq, Set.mem_insert_of_mem _ hheld, hqs, hqn⟩

/-- Dropping a handle releases its name and no other. -/
theorem Tracked.drop (h : Tracked name_for w payloads held) {r : OverflowRegion} (hr : r ∈ held)
    {v : Unit} (hrun : Runs (machine target) t (shm_drop r) w v w') :
    Tracked name_for w' payloads (held \ {r}) := by
  obtain ⟨c, x, u, hx, hdone⟩ := Runs.act_iff.mp hrun
  obtain ⟨-, rfl⟩ := Runs.done_iff.mp hdone
  obtain ⟨v, hv, rfl⟩ := exec_iff.mp hx
  obtain ⟨-, rfl⟩ := Prod.mk.inj (Option.some.inj hv)
  have hlive := h.live r hr
  rw [World.drop_region, if_pos hlive]
  refine ⟨h.named, h.len, h.segment, h.lt_next, h.distinct, fun q hq => h.created q hq.1, ?_, ?_⟩
  · intro q hq
    have hqlive := h.live q hq.1
    have hne : q.name ≠ r.name := fun heq => by
      rw [heq, hlive] at hqlive
      obtain ⟨p, hp, rfl⟩ := h.created r hr
      obtain ⟨p', hp', rfl⟩ := h.created q hq.1
      obtain rfl := h.distinct p hp p' hp' (Option.some.inj hqlive)
      exact hq.2 rfl
    simpa only [Function.update_of_ne hne] using hqlive
  · intro p hp s hs
    by_cases hname : p.region.name = r.name
    · simp only [hname, Function.update_self] at hs
      cases hs
    · simp only [Function.update_of_ne hname] at hs
      obtain ⟨q, hq, hheld, hqs, hqn⟩ := h.stands_for p hp s hs
      refine ⟨q, hq, ⟨hheld, fun heq => hname ?_⟩, hqs, hqn⟩
      rw [← hqn, heq]

theorem tracked_of_run (h : OverflowRun target name_for w payloads held) :
    Tracked name_for w payloads held := by
  induction h with
  | start w => exact ⟨nofun, nofun, nofun, nofun, nofun, nofun, nofun, nofun⟩
  | create _ hrun ih =>
      rcases create_overflow_runs hrun with ⟨-, e, he⟩ | ⟨u, r, g, hu, hg, hn, heq, hlen, hr⟩
      · cases he
      · obtain ⟨rfl, rfl⟩ := Prod.mk.inj (Except.ok.inj heq)
        exact (ih.reclaimed hu).create hg hn hlen hr
  | create_failed _ hrun ih =>
      rcases create_overflow_runs hrun with ⟨hw, -⟩ | ⟨_, _, _, -, -, -, heq, -⟩
      · exact ih.reclaimed hw
      · cases heq
  | drop _ hr hrun ih => exact ih.drop hr hrun
  | read _ hrun ih =>
      obtain ⟨⟨hnames, hsegments, hnext⟩, -⟩ := read_overflow_runs hrun
      exact ih.reclaimed ⟨hsegments, hnext, fun n => .inl (congrFun hnames n)⟩

/-! ### What a late reader gets -/

/-- The bytes at the start of a filled region. -/
theorem read_filled {data : List UInt8} {n : ℕ} (hn : n ≤ ShmRegion.overflow_size_for data.length) :
    read (write (fun _ => 0) 0 data) 0 n =
      (data ++
        List.replicate (ShmRegion.overflow_size_for data.length - data.length) 0).take n := by
  have hlen : data.length + (ShmRegion.overflow_size_for data.length - data.length) =
      ShmRegion.overflow_size_for data.length :=
        Nat.add_sub_cancel' (Tenancy.le_overflow_size_for _)
  have hzero : ∀ k a, read (fun _ => 0) a k = List.replicate k 0 := by
    intro k
    induction k with
    | zero => exact fun _ => rfl
    | succ k ih => exact fun a => by simp only [ByteMemory.read, ih, List.replicate_succ]
  have hfull : read (write (fun _ => 0) 0 data) 0 (ShmRegion.overflow_size_for data.length) =
      data ++ List.replicate (ShmRegion.overflow_size_for data.length - data.length) 0 := by
    rw [← hlen, read_add, read_write_same, read_write_disjoint (.inl le_rfl), hzero, hlen]
  rw [← hfull, read_take _ _ hn]

/-- A program that only reads can be run. -/
theorem run_of_reads (target : Target) (t : Thread) {α : Type} {p : Program bus α}
    (h : p.Confined Action.reads) (w : World) :
    ∃ v w', Runs (machine target) t p w v w' := by
  have hsafe : (reader_contract target t).Safe t p (fun _ _ => True) w :=
    .of_confined (Contract.solo_stable _) (fun _ _ _ _ ha => ⟨rfl, ha⟩)
      (fun _ _ _ _ _ _ _ _ _ => trivial) h
      trivial
  obtain ⟨v, w', hrun, -⟩ := Contract.Safe.progress (C := reader_contract target t)
    (fun _ _ _ hl => reads_enabled hl.2) hsafe trivial
  exact ⟨v, w', hrun⟩

theorem marker_inj {g k : ℕ} (hg : g ≤ MAX_OVERFLOW_GENERATION) (hk : k ≤ MAX_OVERFLOW_GENERATION)
    (h : UInt8.ofNat (g + 1) = UInt8.ofNat (k + 1)) : g = k := by
  have h' := Lease.overflow_generation_marker hg
  rw [h, Lease.overflow_generation_marker hk] at h'
  exact (Option.some.inj h').symm

/-- **When a late reader is safe.**  A read of a payload gives that payload or an error if and only
if no payload created under the same generation is still held that is large enough and starts with
other bytes. -/
theorem read_exact_iff {d : Direction} {config : SlotBusConfig} {slot : ℕ}
    (hslot : target = .macos → slot < 256)
    (hrun : OverflowRun target (d.overflow_name_gen config target slot) w payloads held)
    {p : Payload} (hp : p ∈ payloads) :
    (∀ g n, overflow_generation p.marker = some g →
      d.overflow_name_gen config target slot g = some n →
      ∀ t result w',
        Runs (machine target) t (ShmRegion.read_overflow n p.data.length).run w result w' →
        result = .ok p.data ∨ ∃ e, result = .error e) ↔
    ¬ ∃ q ∈ payloads, q.region ∈ held ∧ q.marker = p.marker ∧
      p.data.length ≤ ShmRegion.overflow_size_for q.data.length ∧
      q.content.take p.data.length ≠ p.data := by
  have h := tracked_of_run hrun
  obtain ⟨g, hg, hname, hmarker⟩ := h.named p hp
  have hgen : overflow_generation p.marker = some g := hmarker ▸ Lease.overflow_generation_marker hg
  -- what a read through the name of a held payload sees
  have hread : ∀ q ∈ payloads, p.data.length ≤ ShmRegion.overflow_size_for q.data.length →
      read (w.segments q.region.segment).bytes 0 p.data.length = q.content.take p.data.length := by
    intro q hq hlen
    rw [h.segment q hq]
    exact read_filled hlen
  constructor
  · rintro hexact ⟨q, hq, hheld, hqp, hlen, hne⟩
    obtain ⟨k, hk, hqname, hqmarker⟩ := h.named q hq
    obtain rfl := marker_inj hg hk (hmarker ▸ hqmarker ▸ hqp.symm)
    obtain hnn := Option.some.inj (hname.symm.trans hqname)
    obtain ⟨result, w', hreads⟩ := run_of_reads target .watcher
      (read_overflow_confined (fun _ => trivial) (fun _ _ => trivial) p.region.name p.data.length) w
    have hlive := h.live _ hheld
    rw [← hnn] at hlive
    rcases (read_overflow_runs hreads).2 with ⟨s, hs, -, rfl⟩ | ⟨hshort, -⟩
    · obtain rfl := Option.some.inj (hlive.symm.trans hs)
      rcases hexact g _ hgen hname _ _ _ hreads with heq | ⟨e, heq⟩
      · rw [hread q hq hlen] at heq
        exact hne (Except.ok.inj heq)
      · cases heq
    · have := hshort _ hlive
      rw [h.segment q hq] at this
      simp only [Segment.fill, h.len q hq] at this
      omega
  · intro hnone g' n hg' hn t result w' hreads
    obtain rfl := Option.some.inj (hgen.symm.trans hg')
    obtain rfl := Option.some.inj (hname.symm.trans hn)
    rcases (read_overflow_runs hreads).2 with ⟨s, hs, hlen, rfl⟩ | ⟨-, e, rfl⟩
    · left
      obtain ⟨q, hq, hheld, rfl, hqn⟩ := h.stands_for p hp s hs
      obtain ⟨k, hk, hqname, hqmarker⟩ := h.named q hq
      rw [hqn] at hqname
      simp only [MAX_OVERFLOW_GENERATION] at hg hk
      have hkept : ∀ n, n ≤ 254 → TailKept target d slot n := fun n hle =>
        tailKept_of_lt d fun ht => ⟨(hslot ht).trans (by omega), by omega⟩
      obtain ⟨-, -, rfl⟩ := overflow_name_gen_injective (hkept g hg) (hkept k hk) hname hqname
      rw [h.segment q hq] at hlen
      simp only [Segment.fill, h.len q hq] at hlen
      rw [hread q hq hlen]
      by_contra hne
      exact hnone ⟨q, hq, hheld, hqmarker.trans hmarker.symm, hlen, fun heq => hne (congrArg _ heq)⟩
    · exact .inr ⟨e, rfl⟩

/-- The overflow names of the request half of the small bus. -/
abbrev small_names : ℕ → Option String := Direction.request.overflow_name_gen small_config .linux 0

/-- A payload that is still held is read exactly. -/
theorem read_exact_iff_small : ∃ w p held,
    OverflowRun .linux small_names w [p] held ∧
      ∀ g n, overflow_generation p.marker = some g →
        small_names g = some n →
        ∀ t result w',
          Runs (machine .linux) t (ShmRegion.read_overflow n p.data.length).run w result w' →
          result = .ok p.data ∨ ∃ e, result = .error e := by
  obtain ⟨w, hcreate⟩ := Machine.exists_run (M := machine .linux) (t := .watcher) (c := ⟨false, ""⟩)
    (p := (ShmRegion.create_overflow_fresh .linux
      small_names [1]).run)
    (s := small_world) (v := .ok (⟨"p-n-req-0", 0, 4096⟩, 1)) (by decide +kernel)
  have hrun := OverflowRun.create (.start small_world) hcreate
  refine ⟨w, _, _, hrun, (read_exact_iff (by decide) hrun List.mem_cons_self).mpr ?_⟩
  rintro ⟨q, hq, -, -, -, hne⟩
  obtain rfl := List.mem_singleton.mp hq
  exact hne rfl

/-- **A late reader is handed another payload.**  The first payload is dropped, the second one gets
its generation, and the reader that still has the marker of the first one gets the bytes of the
second. -/
theorem reader_is_handed_a_later_payload : ∃ w payloads held,
    OverflowRun .linux small_names w payloads held ∧ ∃ p ∈ payloads, p.data = [1] ∧
      ∃ g n, overflow_generation p.marker = some g ∧ small_names g = some n ∧
        ∃ w', Runs (machine .linux) .watcher (ShmRegion.read_overflow n p.data.length).run w
          (.ok [2]) w' := by
  obtain ⟨w', hrun⟩ := Machine.exists_run (M := machine .linux) (t := .watcher) (c := ⟨false, ""⟩)
    (p := (do
      let first ← ShmRegion.create_overflow_fresh .linux
        small_names [1]
      shm_drop first.1
      let second ← ShmRegion.create_overflow_fresh .linux
        small_names [2]
      let bytes ← ShmRegion.read_overflow "p-n-req-0" 1
      pure (first, second, bytes) : Fallible _).run)
    (s := small_world)
    (v := .ok ((⟨"p-n-req-0", 0, 4096⟩, 1), (⟨"p-n-req-0", 1, 4096⟩, 1), [2])) (by decide +kernel)
  obtain ⟨first, w₁, hfirst, hrun⟩ := runs_bind_ok hrun
  obtain ⟨_, w₂, hdrop, hrun⟩ := runs_bind_ok hrun
  obtain ⟨second, w₃, hsecond, hrun⟩ := runs_bind_ok hrun
  obtain ⟨bytes, w₄, hread, hdone⟩ := runs_bind_ok hrun
  obtain ⟨hresult, rfl⟩ := Runs.done_iff.mp hdone
  obtain ⟨rfl, hrest⟩ := Prod.mk.inj (Except.ok.inj hresult)
  obtain ⟨rfl, rfl⟩ := Prod.mk.inj hrest
  have hcreate := OverflowRun.create (.start small_world) hfirst
  have hdropped := OverflowRun.drop hcreate (Set.mem_insert _ _) (runs_lift hdrop)
  exact ⟨w₃, _, _, OverflowRun.create hdropped hsecond, ⟨[1], _, 1⟩,
    List.mem_cons_of_mem _ List.mem_cons_self, rfl, 0, "p-n-req-0", rfl, by
      decide +kernel, w', hread⟩

end SlotBus
