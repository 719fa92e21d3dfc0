import SlotBus.Placement

/-!
# Reading and writing a half under interference

The programs of `region.rs` run alone in some results and between the steps of other threads in
others.  Both are covered by one specification, stated against any contract under which the thread
has the half to itself:

* `Lease` — the thread may read the half, and the others leave it alone;
* `Tenancy` — it may also write it.

The record of the slot is always guaranteed, the arena under the condition `faithful`, the overflow
regions under the condition `tracked`; and a `firm` lease is one under which the others do not even
release the overflow names.
-/

namespace SlotBus

open ByteMemory AtomicProgram AtomicProgram.Program

variable {L : Type} {M : System bus Thread World Choice L}

/-- The actions of a reader. -/
def Action.reads : Action → Prop
  | .load _ | .read _ _ | .shm_open _ | .shm_read _ _ => True
  | _ => False

/-- An error ends a program, so that what follows need not be looked at. -/
theorem confined_bind {α β : Type} {P : Action → Prop} {p : Fallible α} {f : α → Fallible β}
    (hp : p.run.Confined P) (hf : ∀ v, (f v).run.Confined P) : (p >>= f).run.Confined P := by
  refine Confined.bind hp fun r => ?_
  cases r with
  | ok v => exact hf v
  | error e => trivial

theorem confined_lift {α : Type} {P : Action → Prop} {p : Program bus α} (hp : p.Confined P) :
    (liftM p : Fallible α).run.Confined P :=
  Confined.bind hp fun _ => trivial

/-- Reading an overflow region only reads. -/
theorem read_overflow_confined {allowed : Action → Prop} (hopen : ∀ n, allowed (.shm_open n))
    (hread : ∀ s len, allowed (.shm_read s len)) (n : String) (len : ℕ) :
    (ShmRegion.read_overflow n len).run.Confined allowed := by
  refine ⟨hopen n, fun x => ?_⟩
  cases x with
  | error e => trivial
  | ok v =>
      show Program.Confined _ (ExceptT.run (if v.2 < len then _ else _))
      split
      · trivial
      · exact ⟨hread v.1 len, fun _ => trivial⟩

/-- An error that the serializer reports, as opposed to one of placing a payload. -/
def SlotBusError.is_serialization : SlotBusError → Bool
  | .Serialization _ => true
  | _ => false

/-- Thread `t` may read the half `H`, and the other threads leave it alone. -/
structure Lease (C : Contract M) (t : Thread) (H : SlotHalf) where
  holds : World → Prop
  faithful : Prop
  tracked : Prop
  firm : Prop
  machine_eq : M.toMachine = machine H.target
  in_table : H.InTable
  sound : faithful → H.Sound
  stable : C.Stable t holds
  history_eq : ∀ {w w'}, C.Interferes t w w' → history t w'.log = history t w.log
  quiet : ∀ {w w'}, C.Interferes t w w' → holds w → H.Quiet faithful tracked firm w w'
  read_legal : ∀ {w a}, C.invariant w → holds w → a.reads → C.legal t a w
  read_keeps : ∀ {w a c r w'}, C.invariant w → holds w → a.reads →
    M.exec t a c w = some (r, w') → holds w'

/-- Thread `t` may write the half `H`, and the other threads leave it alone. -/
structure Tenancy (C : Contract M) (t : Thread) (H : SlotHalf) extends Lease C t H where
  own_legal : ∀ {w a}, C.invariant w → holds w → H.Own t w.log a → C.legal t a w
  own_keeps : ∀ {w a c r w'}, C.invariant w → holds w → H.Own t w.log a →
    M.exec t a c w = some (r, w') → holds w'

/-! ### Actions inside a half -/

namespace SlotHalf

variable {H : SlotHalf} {t : Thread} {log : List Entry}

theorem own_record {x : ℕ} {bs : List UInt8} (h : span x bs.length ⊆ record H.direction H.slot) :
    H.Own t log (.write x bs) :=
  ⟨.inl h, fun _ => h.trans record_subset_footprint⟩

theorem own_field {k : ℕ} {bs : List UInt8} (h : k + bs.length ≤ 17) :
    H.Own t log (.write (H.field k) bs) := own_record (field_subset h)

theorem own_heap (hslot : H.slot < H.region.num_slots) {start : ℕ} {bs : List UInt8}
    (h1 : H.base ≤ start) (h2 : start + bs.length ≤ H.base + H.capacity)
    (h3 : start % 2 ^ 32 + bs.length ≤ H.region.heap_size) :
    H.Own t log (.write (H.region.heap_offset + start % 2 ^ 32) bs) := by
  refine ⟨.inr (span_subset (by omega) (by omega)), fun hheap => ?_⟩
  have hfits := half_fits hslot
  rw [Nat.mod_eq_of_lt (by omega)]
  exact (arena_subset h1 h2).trans arena_subset_footprint

end SlotHalf

namespace Tenancy

variable {C : Contract M} {t : Thread} {H : SlotHalf} (T : Tenancy C t H) {α β : Type}

/-- The half holds the bytes of `m`. -/
def At (m : Memory) (w : World) : Prop := T.holds w ∧ AgreeOn (H.area T.faithful) m w.mem

variable {T} {m : Memory} {w : World} {Q : Except SlotBusError β → World → Prop}

theorem stable_at : C.Stable t (T.At m) := by
  intro w w' hi h
  exact ⟨T.stable _ _ hi h.1, h.2.trans (T.quiet hi h.1).memory⟩

theorem exec_eq (T : Tenancy C t H) : M.exec = (machine H.target).exec :=
  congrArg Machine.exec T.machine_eq

variable (T) in
/-- An assertion that neither the others nor a write inside the half can invalidate. -/
structure Frame (F : World → Prop) : Prop where
  stable : ∀ {u u'}, C.Interferes t u u' → T.holds u → F u → F u'
  keeps : ∀ {u u' x bs c r}, F u → M.exec t (.write x bs) c u = some (r, u') → F u'

theorem Frame.trivial : T.Frame fun _ => True := ⟨fun _ _ _ => True.intro, fun _ _ => True.intro⟩

/-- A write inside the half. -/
theorem write {F : World → Prop} (hF : T.Frame F) {x : ℕ} {bs : List UInt8} {rest : Fallible β}
    (h : T.At m w) (hFw : F w) (hown : ∀ log, H.Own t log (.write x bs))
    (hk : ∀ w', C.invariant w' → T.At (ByteMemory.write m x bs) w' → F w' →
      C.Safe t rest.run Q w') :
    C.Safe t ((liftM (write_bytes x bs) : Fallible Unit) >>= fun _ => rest).run Q w := by
  refine Contract.Safe.act (P := fun u => T.At m u ∧ F u)
    (fun u u' hi hu => ⟨stable_at u u' hi hu.1, hF.stable hi hu.1.1 hu.2⟩) ⟨h, hFw⟩
    (fun u hu hP => T.own_legal hu hP.1.1 (hown _)) ?_
  rintro u c r w' hu ⟨hat, hFu⟩ hw' hx
  refine hk w' hw' ⟨T.own_keeps hu hat.1 (hown _) hx, ?_⟩ (hF.keeps hFu hx)
  rw [T.exec_eq] at hx
  rw [exec_write hx]
  exact hat.2.write_both x bs

/-- A failing exit. -/
theorem fail {e : SlotBusError} (h : T.At m w)
    (herr : ∀ u, C.invariant u → T.holds u → Q (.error e) u) :
    C.Safe t (throw e : Fallible β).run Q w :=
  Contract.Safe.done stable_at h fun u hu hP => herr u hu hP.1

theorem heap_write {offset : ℕ} {data : List UInt8} {rest : Fallible β} (h : T.At m w)
    (hown : offset + data.length ≤ H.region.heap_size →
      ∀ log, H.Own t log (.write (H.region.heap_offset + offset) data))
    (herr : ∀ e u, e.is_serialization = false → C.invariant u → T.holds u → Q (.error e) u)
    (hk : ∀ w', C.invariant w' → T.At (ByteMemory.write m (H.region.heap_offset + offset) data) w' →
      C.Safe t rest.run Q w') :
    C.Safe t (H.region.heap_write_checked offset data >>= fun _ => rest).run Q w := by
  unfold ShmRegion.heap_write_checked
  by_cases hfit : offset + data.length ≤ H.region.heap_size
  · rw [if_pos hfit]
    exact write .trivial h True.intro (hown hfit) fun w' hw' hat _ => hk w' hw' hat
  · rw [if_neg hfit]
    exact fail h fun u => herr _ u rfl

/-! ### Creating an overflow region -/

variable (T) in
/-- A region that the thread has created for the half at generation `g`, holding `data`. -/
abbrev Fresh (r : OverflowRegion) (g : ℕ) (data : List UInt8) (w : World) : Prop :=
  H.Fresh T.tracked T.firm t r g data w

theorem Fresh.frame (r : OverflowRegion) (g : ℕ) (data : List UInt8) :
    T.Frame (T.Fresh r g data) where
  stable hi hu hr := (T.quiet hi hu).fresh (by rw [T.history_eq hi]) hr
  keeps {u u' x bs c y} hr hx := by
    rw [T.exec_eq] at hx
    obtain rfl := exec_write hx
    have hcreated : Created_by t r (⟨t, .write x bs, ()⟩ :: u.log) :=
      List.mem_cons_of_mem _ hr.created
    exact ⟨hr.generation_le, hr.name_eq, hcreated, (latest_region_cons (by simp)).trans hr.latest,
      fun ht => { hr.backed ht with created := hcreated }, hr.live⟩

theorem stable_fresh {r : OverflowRegion} {g : ℕ} {data : List UInt8} :
    C.Stable t fun u => T.At m u ∧ T.Fresh r g data u :=
  fun u u' hi h => ⟨stable_at u u' hi h.1, (Fresh.frame r g data).stable hi h.1.1 h.2⟩

/-- An own action that does not write the mapping. -/
theorem at_of_own {u w' : World} {a : Action} {c : Choice} {r : Answer a} (hu : C.invariant u)
    (h : T.At m u) (hown : H.Own t u.log a) (hwritten : a.written = ∅)
    (hstatus : a.status_slot = none) (hx : M.exec t a c u = some (r, w')) : T.At m w' := by
  refine ⟨T.own_keeps hu h.1 hown hx, ?_⟩
  rw [T.exec_eq] at hx
  refine h.2.trans fun x _ => ((exec_changes hx).mem x ?_ ?_).symm
  · rw [hwritten]
    exact Set.notMem_empty x
  · intro i hi
    rw [hstatus] at hi
    cases hi

/-- One create attempt. -/
theorem try_create {n : String} {size g : ℕ} {f : Option OverflowRegion → Fallible β} (h : T.At m w)
    (hg : g ≤ MAX_OVERFLOW_GENERATION) (hn : H.name g = some n)
    (herr : ∀ e u, e.is_serialization = false → C.invariant u → T.holds u → Q (.error e) u)
    (hnone : ∀ w', C.invariant w' → T.At m w' → C.Safe t (f none).run Q w')
    (hsome : ∀ r w', C.invariant w' → T.At m w' → T.Fresh r g [] w' → r.name = n → r.len = size →
      C.Safe t (f (some r)).run Q w') :
    C.Safe t (ShmRegion.try_create_exclusive n size >>= f).run Q w := by
  have hown : ∀ log, H.Own t log (.shm_create n size) := fun _ => ⟨g, hg, hn⟩
  refine Contract.Safe.act stable_at h (fun u hu hP => T.own_legal hu hP.1 (hown _)) ?_
  intro u c r w' hu hP hw' hx
  have hat := at_of_own hu hP (hown _) rfl rfl hx
  rw [T.exec_eq] at hx
  rcases exec_shm_create hx with ⟨text, rfl⟩ | rfl | ⟨rfl, hname, hseg, hcreated, hlatest⟩
  · exact fail hat fun u => herr _ u rfl
  · exact hnone w' hw' hat
  · refine hsome _ w' hw' hat ⟨hg, hn, hcreated, hlatest, fun _ => ?_, fun _ _ => hname⟩ rfl rfl
    refine ⟨⟨g, hg, hn⟩, hcreated, by rw [hseg], rfl, fun s hs => ?_⟩
    exact (Option.some.inj (hname.symm.trans hs)).symm

/-- A create attempt that reclaims an orphaned name. -/
theorem create_exclusive {n : String} {size g : ℕ} {f : Option OverflowRegion → Fallible β}
    (h : T.At m w) (hg : g ≤ MAX_OVERFLOW_GENERATION) (hn : H.name g = some n)
    (herr : ∀ e u, e.is_serialization = false → C.invariant u → T.holds u → Q (.error e) u)
    (hnone : ∀ w', C.invariant w' → T.At m w' → C.Safe t (f none).run Q w')
    (hsome : ∀ r w', C.invariant w' → T.At m w' → T.Fresh r g [] w' → r.name = n → r.len = size →
      C.Safe t (f (some r)).run Q w') :
    C.Safe t (ShmRegion.create_exclusive H.target n size >>= f).run Q w := by
  unfold ShmRegion.create_exclusive
  rw [bind_assoc]
  refine try_create h hg hn herr ?_ ?_
  · intro u hu hat
    show C.Safe t (((ShmRegion.reclaim_orphaned_backing_file H.target n >>= fun b =>
      if b then ShmRegion.try_create_exclusive n size else pure none) >>= f).run) Q u
    rw [bind_assoc]
    -- whether or not the name was reclaimed
    have hthen : ∀ (b : Bool) w', C.invariant w' → T.At m w' →
        C.Safe t ((if b then ShmRegion.try_create_exclusive n size else pure none) >>=
          f).run Q w' := by
      rintro (_ | _) w' hw' hat'
      · exact hnone w' hw' hat'
      · exact try_create hat' hg hn herr hnone hsome
    unfold ShmRegion.reclaim_orphaned_backing_file
    split
    · have hown : ∀ log, H.Own t log (.shm_reclaim n) := fun _ => ⟨g, hg, hn⟩
      refine Contract.Safe.act stable_at hat (fun u hu hP => T.own_legal hu hP.1 (hown _)) ?_
      intro u' c r w' hu' hP hw' hx
      exact hthen r w' hw' (at_of_own hu' hP (hown _) rfl rfl hx)
    · exact hthen false u hu hat
    · exact hthen false u hu hat
  · intro r u hu hat hfresh hname hlen
    exact hsome r u hu hat hfresh hname hlen

theorem le_overflow_size_for (n : ℕ) : n ≤ ShmRegion.overflow_size_for n := by
  unfold ShmRegion.overflow_size_for
  omega

/-- Filling a region that is large enough. -/
theorem fill_overflow {r : OverflowRegion} {g : ℕ} {n : String} {data : List UInt8}
    {f : OverflowRegion → Fallible β} (h : T.At m w) (hr : T.Fresh r g [] w)
    (hlen : data.length ≤ r.len) (hk : ∀ w', C.invariant w' → T.At m w' → T.Fresh r g data w' →
      C.Safe t (f r).run Q w') :
    C.Safe t (ShmRegion.fill_overflow r n data >>= f).run Q w := by
  unfold ShmRegion.fill_overflow
  rw [if_neg (by omega)]
  refine Contract.Safe.act stable_fresh ⟨h, hr⟩
    (fun u hu hP => T.own_legal hu hP.1.1 ⟨⟨g, hr.generation_le, hr.name_eq⟩, hP.2.created⟩) ?_
  rintro u c x w' hu ⟨hat, hfresh⟩ hw' hx
  have hname : H.OwnName r.name := ⟨g, hr.generation_le, hr.name_eq⟩
  have hat' := at_of_own (a := .shm_write r data) hu hat ⟨hname, hfresh.created⟩ rfl rfl hx
  rw [T.exec_eq] at hx
  obtain rfl := exec_shm_write hx
  refine hk _ hw' hat' ⟨hfresh.generation_le, hfresh.name_eq, List.mem_cons_of_mem _ hfresh.created,
    (latest_region_cons (by simp)).trans hfresh.latest, fun ht => ?_, hfresh.live⟩
  have hb := hfresh.backed ht
  refine ⟨hname, List.mem_cons_of_mem _ hb.created, ?_, ?_, hb.named⟩
  · simpa [Segment.fill] using hb.len
  · simpa [Segment.fill] using read_write_same (u.segments r.segment).bytes 0 data

/-- The generation loop: it takes the first generation whose name is free, and only then touches
anything. -/
theorem create_overflow_from {data : List UInt8} {f : OverflowRegion × UInt8 → Fallible β}
    {remaining generation : ℕ} {last_name : String} (h : T.At m w) (hw : C.invariant w)
    (hgen : generation + remaining ≤ MAX_OVERFLOW_GENERATION + 1)
    (herr : ∀ e u, e.is_serialization = false → C.invariant u → T.holds u → Q (.error e) u)
    (hk : ∀ r g w', C.invariant w' → T.At m w' → T.Fresh r g data w' → data.length ≤ r.len →
      C.Safe t (f (r, UInt8.ofNat (g + 1))).run Q w') :
    C.Safe t (ShmRegion.create_overflow_from H.target H.name data remaining generation last_name >>=
      f).run Q w := by
  induction remaining generalizing w generation last_name with
  | zero => exact fail h fun u => herr _ u rfl
  | succ remaining ih =>
      have hg : generation ≤ MAX_OVERFLOW_GENERATION := by omega
      unfold ShmRegion.create_overflow_from
      cases hn : H.name generation with
      | none =>
          -- computing the name panics
          refine Contract.Safe.act stable_at h (fun u hu hP => T.own_legal hu hP.1 trivial) ?_
          intro u c r
          exact nomatch (r : Empty)
      | some n =>
          show C.Safe t ((ShmRegion.create_exclusive H.target n _ >>= _) >>= f).run Q w
          rw [bind_assoc]
          refine create_exclusive h hg hn herr ?_ ?_
          · intro w' hw' hat
            exact ih hat hw' (by omega)
          · intro r w' hw' hat hfresh _ hlen
            show C.Safe t ((ShmRegion.fill_overflow r n data >>= _) >>= f).run Q w'
            rw [bind_assoc]
            have hfits : data.length ≤ r.len := by
              rw [hlen]
              exact le_overflow_size_for _
            exact fill_overflow hat hfresh hfits fun w'' hw'' hat' hfresh' =>
              hk r generation w'' hw'' hat' hfresh' hfits

/-! ### Placing a payload -/

/-- The three body fields. -/
theorem write_body_fields {F : World → Prop} (hF : T.Frame F) {offset len : ℕ} {marker : UInt8}
    {rest : Fallible β} (h : T.At m w) (hFw : F w)
    (hk : ∀ w', C.invariant w' → T.At (H.place_fields offset len marker m) w' → F w' →
      C.Safe t rest.run Q w') :
    C.Safe t (SlotBus.write_body_fields H.direction H.slot offset len marker >>= fun _ => rest).run
      Q w := by
  unfold SlotBus.write_body_fields
  simp only [bind_assoc]
  refine write hF h hFw (fun _ => SlotHalf.own_field (by rw [encodeLE_length]; omega)) ?_
  intro w₁ _ h₁ hF₁
  refine write hF h₁ hF₁ (fun _ => SlotHalf.own_field (by rw [encodeLE_length]; omega)) ?_
  intro w₂ _ h₂ hF₂
  exact write hF h₂ hF₂ (fun _ => SlotHalf.own_field (by simp)) hk

/-- What the thread knows once a payload is placed. -/
structure Written (T : Tenancy C t H) (meta_bytes body : List UInt8) (P : Placement)
    (m : Memory) (w : World) : Prop where
  holds : T.holds w
  filled : H.Filled T.faithful T.tracked T.firm t meta_bytes body P m w

theorem stable_written {meta_bytes body : List UInt8} {P : Placement} :
    C.Stable t (T.Written meta_bytes body P m) :=
  fun u u' h hu =>
    ⟨T.stable u u' h hu.holds, (T.quiet h hu.holds).filled (by rw [T.history_eq h]) hu.filled⟩

theorem arena_body_offset_eq_some {meta_len body_len offset : ℕ}
    (h : arena_body_offset H.base H.capacity meta_len body_len = some offset) :
    H.base + align8 meta_len + body_len ≤ H.base + H.capacity ∧
      offset = (H.base + align8 meta_len) % 2 ^ 32 := by
  simp only [arena_body_offset] at h
  split at h
  · rename_i hfit
    exact ⟨hfit, (Option.some.inj h).symm⟩
  · cases h

theorem write_body {meta_bytes body : List UInt8} {f : Option OverflowRegion → Fallible β}
    (h : T.At (H.place_meta meta_bytes m) w) (hw : C.invariant w)
    (hmeta : meta_bytes.length ≤ H.capacity)
    (herr : ∀ e u, e.is_serialization = false → C.invariant u → T.holds u → Q (.error e) u)
    (hk : ∀ P w', C.invariant w' → T.Written meta_bytes body P m w' →
      C.Safe t (f P.handle).run Q w') :
    C.Safe t (SlotBus.write_body H.direction H.target H.region H.slot
      meta_bytes.length body H.config >>=
      f).run Q w := by
  unfold SlotBus.write_body
  by_cases hbody : body = []
  · subst hbody
    rw [if_pos rfl, bind_assoc]
    refine write_body_fields .trivial h True.intro fun w' hw' hat _ => ?_
    exact hk .empty w' hw' ⟨hat.1, hmeta, fun _ => rfl, hat.2, nofun⟩
  · rw [if_neg hbody]
    simp only []
    cases hoff : arena_body_offset (H.direction.half (H.region.slot_arenas H.slot)).1
      (H.direction.half (H.region.slot_arenas H.slot)).2 meta_bytes.length body.length with
    | some offset =>
        obtain ⟨hfit, hoffset⟩ := arena_body_offset_eq_some hoff
        show C.Safe t ((_ >>= _) >>= f).run Q w
        rw [bind_assoc]
        refine heap_write h (fun hheap log => ?_) herr fun w' hw' hat => ?_
        · subst hoffset
          exact SlotHalf.own_heap T.in_table.slot_lt (Nat.le_add_right _ _) hfit hheap
        rw [bind_assoc]
        refine write_body_fields .trivial hat True.intro fun w'' hw'' hat' _ => ?_
        refine hk (.inline offset) w'' hw'' ⟨hat'.1, hmeta, fun hf => ?_, hat'.2, nofun⟩
        have hheap := (T.sound hf).heap_lt
        have hhalf := SlotHalf.half_fits T.in_table.slot_lt
        have hmod : (H.base + align8 meta_bytes.length) % 2 ^ 32 = H.base +
            align8 meta_bytes.length :=
          Nat.mod_eq_of_lt (by omega)
        rw [hmod] at hoffset
        exact ⟨hoffset, hoffset ▸ hfit⟩
    | none =>
        show C.Safe t ((_ >>= _) >>= f).run Q w
        rw [bind_assoc]
        refine create_overflow_from h hw (by omega) herr ?_
        intro r g w' hw' hat hfresh hlen
        show C.Safe t
            ((SlotBus.write_body_fields _ _ _ _ _ >>= fun _ => pure (some r)) >>= f).run Q w'
        rw [bind_assoc]
        refine write_body_fields (Fresh.frame r g body) hat hfresh fun w'' hw'' hat' hfresh' => ?_
        refine hk (.overflow g r) w'' hw'' ⟨hat'.1, hmeta, fun _ => ?_, hat'.2, ?_⟩
        · exact ⟨hfresh'.generation_le, hfresh'.name_eq, hlen⟩
        · rintro q ⟨⟩
          exact ⟨g, rfl, hfresh'⟩

/-- **Placing a payload.**  If it succeeds the half holds the payload, and its errors are never
those of the serializer. -/
theorem write_payload {meta_bytes body : List UInt8} {f : Option OverflowRegion → Fallible β}
    (h : T.At m w)
    (herr : ∀ e u, e.is_serialization = false → C.invariant u → T.holds u → Q (.error e) u)
    (hk : ∀ P w', C.invariant w' → T.Written meta_bytes body P m w' →
      C.Safe t (f P.handle).run Q w') :
    C.Safe t (SlotBus.write_payload H.direction H.target H.region H.slot
      meta_bytes body H.config >>=
      f).run Q w := by
  unfold SlotBus.write_payload
  simp only [bind_assoc]
  unfold ensure
  by_cases hmeta : meta_bytes.length ≤ (H.direction.half (H.region.slot_arenas H.slot)).2
  · rw [if_pos hmeta]
    refine heap_write h (fun hheap log => ?_) herr fun w₁ hw₁ h₁ => ?_
    · exact SlotHalf.own_heap T.in_table.slot_lt le_rfl (Nat.add_le_add_left hmeta _) hheap
    refine write .trivial h₁ True.intro (x := H.field 0) (fun _ => SlotHalf.own_field (by simp)) ?_
    intro w₂ _ h₂ _
    refine write .trivial h₂ True.intro (x := H.field 4) (fun _ => SlotHalf.own_field (by simp)) ?_
    intro w₃ hw₃ h₃ _
    exact write_body h₃ hw₃ hmeta herr hk
  · rw [if_neg hmeta]
    exact fail h fun u => herr _ u rfl

end Tenancy
/-! ### Reading a payload -/

namespace Lease

variable {C : Contract M} {t : Thread} {H : SlotHalf} {K : Lease C t H} {α β : Type}

/-- What a reader of the half knows: the half holds the bytes of `m`, and an overflow region the
body.  Under a firm lease the region can be opened. -/
structure View (K : Lease C t H) (m : Memory) (writer : Thread) (body : List UInt8) (P : Placement)
    (w : World) : Prop where
  holds : K.holds w
  bytes : AgreeOn (H.area K.faithful) m w.mem
  backed : K.tracked → ∀ r, P.handle = some r → H.Backed writer r body w
  live : K.tracked → K.firm → P.Live w

theorem exec_eq (K : Lease C t H) : M.exec = (machine H.target).exec :=
  congrArg Machine.exec K.machine_eq

variable {m : Memory} {writer : Thread} {body : List UInt8} {P : Placement} {w : World}

theorem stable_view : C.Stable t (K.View m writer body P) := by
  intro u u' hi h
  have hq := K.quiet hi h.holds
  refine ⟨K.stable _ _ hi h.holds, h.bytes.trans hq.memory,
    fun ht r hr => hq.backed ht (h.backed ht r hr), fun ht hfirm r hr => ?_⟩
  rcases hq.names ht r.name (h.backed ht r hr).own with heq | ⟨hnot, -⟩
  · exact heq.trans (h.live ht hfirm r hr)
  · exact absurd hfirm hnot

/-- A reading action keeps the view. -/
theorem View.reads {u w' : World} {a : Action} {c : Choice} {r : Answer a} (hu : C.invariant u)
    (h : K.View m writer body P u) (ha : a.reads) (hx : M.exec t a c u = some (r, w'))
    (hsame : w' = { u with log := ⟨t, a, r⟩ :: u.log }) : K.View m writer body P w' := by
  refine ⟨K.read_keeps hu h.holds ha hx, ?_, ?_, ?_⟩
  · rw [hsame]
    exact h.bytes
  · intro ht q hq
    rw [hsame]
    exact { h.backed ht q hq with created := List.mem_cons_of_mem _ (h.backed ht q hq).created }
  · rw [hsame]
    exact h.live

/-- A read inside the half. -/
theorem read {x n : ℕ} {k : List UInt8 → Program bus α} {Q : α → World → Prop}
    (h : K.View m writer body P w) (hsub : span x n ⊆ H.area K.faithful)
    (hk : ∀ w', C.invariant w' → K.View m writer body P w' →
      C.Safe t (k (ByteMemory.read m x n)) Q w') :
    C.Safe t (.act (.read x n) k) Q w := by
  refine Contract.Safe.act stable_view h (fun u hu hP => K.read_legal hu hP.holds trivial) ?_
  intro u c r w' hu hP hw' hx
  have hx' := hx
  rw [K.exec_eq] at hx'
  obtain ⟨v, hv, hsame⟩ := exec_iff.mp hx'
  obtain ⟨rfl, rfl⟩ := Prod.mk.inj (Option.some.inj hv)
  rw [← hP.bytes.read hsub]
  exact hk w' hw' (hP.reads (a := .read x n) hu trivial hx hsame)

/-- A field of the slot record. -/
theorem read_field {k n : ℕ} {f : ℕ → Fallible β}
    {Q : Except SlotBusError β → World → Prop} (h : K.View m writer body P w) (hkn : k + n ≤ 17)
    (hk : ∀ w', C.invariant w' → K.View m writer body P w' →
      C.Safe t (f (load m (H.field k) n)).run Q w') :
    C.Safe t ((liftM (SlotBus.read_field H.slot (H.direction.fields + k) n) : Fallible ℕ) >>=
      f).run Q w :=
  read h ((SlotHalf.field_subset hkn).trans SlotHalf.record_subset_area) hk

/-- A read of the half's share of the heap. -/
theorem heap_read (hf : K.faithful) {offset n : ℕ} {f : List UInt8 → Fallible β}
    {Q : Except SlotBusError β → World → Prop} (h : K.View m writer body P w) (h1 : H.base ≤ offset)
    (h2 : offset + n ≤ H.base + H.capacity)
    (hk : ∀ w', C.invariant w' → K.View m writer body P w' →
      C.Safe t (f (ByteMemory.read m (H.region.heap_offset + offset) n)).run Q w') :
    C.Safe t (H.region.heap_read_checked offset n >>= f).run Q w := by
  have hfits := SlotHalf.half_fits K.in_table.slot_lt
  unfold ShmRegion.heap_read_checked
  rw [if_pos (by omega)]
  exact read h (((SlotHalf.arena_subset h1 h2).trans SlotHalf.arena_subset_footprint).trans
    (SlotHalf.footprint_subset_area hf)) hk

/-- Opening and reading the overflow region of the payload. -/
theorem read_overflow (ht : K.tracked) {g : ℕ} {r : OverflowRegion} {f : List UInt8 → Fallible β}
    {Q : Except SlotBusError β → World → Prop} (h : K.View m writer body (.overflow g r) w)
    (hlen : body.length ≤ r.len)
    (herr : ¬ K.firm → ∀ e u, e.is_serialization = false → C.invariant u →
      K.holds u → Q (.error e) u)
    (hk : ∀ w', C.invariant w' → K.View m writer body (.overflow g r) w' →
      C.Safe t (f body).run Q w') :
    C.Safe t (ShmRegion.read_overflow r.name body.length >>= f).run Q w := by
  unfold ShmRegion.read_overflow
  rw [bind_assoc]
  refine Contract.Safe.act stable_view h (fun u hu hP => K.read_legal hu hP.holds trivial) ?_
  intro u c x w' hu hP hw' hx
  have hx' := hx
  rw [K.exec_eq] at hx'
  obtain ⟨v, hv, hsame⟩ := exec_iff.mp hx'
  have hb := hP.backed ht r rfl
  simp only [effect] at hv
  cases hn : u.names r.name with
  | none =>
      rw [hn] at hv
      obtain ⟨rfl, rfl⟩ := Prod.mk.inj (Option.some.inj hv)
      have hP' := hP.reads (a := .shm_open r.name) hu trivial hx hsame
      have hnot : ¬ K.firm := fun hfirm => by
        rw [hP.live ht hfirm r rfl] at hn
        cases hn
      exact Contract.Safe.done stable_view hP' fun u' hu' hP'' =>
        herr hnot _ u' rfl hu' hP''.holds
  | some s =>
      rw [hn] at hv
      obtain ⟨rfl, rfl⟩ := Prod.mk.inj (Option.some.inj hv)
      obtain rfl := hb.named s hn
      have hP' := hP.reads (a := .shm_open r.name) hu trivial hx hsame
      show C.Safe t ((if (u.segments r.segment).len < body.length then _ else _) >>= f).run Q w'
      rw [if_neg (by rw [hb.len]; omega)]
      refine Contract.Safe.act stable_view hP' (fun u hu hP => K.read_legal hu hP.holds trivial) ?_
      intro u₂ c₂ y w'' hu₂ hP₂ hw'' hy
      have hy' := hy
      rw [K.exec_eq] at hy'
      obtain ⟨v, hv, hsame⟩ := exec_iff.mp hy'
      obtain ⟨rfl, rfl⟩ := Prod.mk.inj (Option.some.inj hv)
      rw [(hP₂.backed ht r rfl).bytes]
      exact hk w'' hw'' (hP₂.reads (a := .shm_read r.segment body.length) hu₂ trivial hy hsame)

theorem decode_marker (marker : UInt8) : UInt8.ofNat (decodeLE [marker]) = marker := by
  simp [decodeLE]

theorem overflow_generation_marker {g : ℕ} (hg : g ≤ MAX_OVERFLOW_GENERATION) :
    overflow_generation (UInt8.ofNat (g + 1)) = some g := by
  simp only [MAX_OVERFLOW_GENERATION] at hg
  have h : (UInt8.ofNat (g + 1)).toNat = g + 1 := by
    rw [UInt8.toNat_ofNat']
    omega
  rw [overflow_generation, h]
  rfl

/-- **Reading a payload back.**  What is recorded is read, unless the overflow name has been
released. -/
theorem read_payload (hf : K.faithful) (ht : K.tracked) {meta_bytes : List UInt8} {codec : Codec α}
    {f : α × List UInt8 → Fallible β} {Q : Except SlotBusError β → World → Prop}
    (h : K.View m writer body P w) (hr : H.Recorded meta_bytes body P m)
    (hmeta : meta_bytes.length < 2 ^ 16) (hbody : body.length < 2 ^ 32)
    (hcodec : ∀ e u, codec.from_bytes meta_bytes = .error e → C.invariant u → K.holds u →
      Q (.error (.Serialization e)) u)
    (herr : ¬ K.firm → ∀ e u, e.is_serialization = false → C.invariant u →
      K.holds u → Q (.error e) u)
    (hk : ∀ v w', codec.from_bytes meta_bytes = .ok v → C.invariant w' → K.View m writer body P w' →
      C.Safe t (f (v, body)).run Q w') :
    C.Safe t (SlotBus.read_payload H.direction codec H.target H.region H.slot H.config >>=
      f).run Q w := by
  unfold SlotBus.read_payload
  simp only [bind_assoc]
  refine read_field (k := 0) h (by omega) fun w₁ _ h₁ => ?_
  rw [hr.meta_offset]
  refine read_field h₁ (by omega) fun w₂ _ h₂ => ?_
  rw [hr.meta_len, Nat.mod_eq_of_lt hmeta]
  refine heap_read hf h₂ le_rfl (Nat.add_le_add_left hr.meta_fits _) fun w₃ _ h₃ => ?_
  rw [hr.metadata]
  cases hv : codec.from_bytes meta_bytes with
  | error e =>
      exact Contract.Safe.done stable_view h₃ fun u hu hP => hcodec e u hv hu hP.holds
  | ok v =>
      refine read_field h₃ (by omega) fun w₄ _ h₄ => ?_
      rw [hr.body_len, Nat.mod_eq_of_lt hbody]
      refine read_field h₄ (by omega) fun w₅ hw₅ h₅ => ?_
      rw [load, hr.marker, decode_marker]
      by_cases hzero : body.length = 0
      · rw [if_pos hzero]
        have hnil := List.length_eq_zero_iff.mp hzero
        subst hnil
        exact hk v w₅ hv hw₅ h₅
      rw [if_neg hzero]
      cases P with
      | empty => exact absurd hr.placed hzero
      | inline offset =>
          have hplaced : offset = H.base + align8 meta_bytes.length ∧ _ := hr.placed
          show C.Safe t ((_ >>= _) >>= f).run Q w₅
          simp only [bind_assoc]
          refine read_field h₅ (by omega) fun w₆ _ h₆ => ?_
          have hoffset : load m (H.field 8) 4 = offset := hr.body_offset
          rw [hoffset]
          refine heap_read hf h₆ (by rw [hplaced.1]; omega) hplaced.2 fun w₇ hw₇ h₇ => ?_
          rw [hr.inline_body offset rfl]
          exact hk v w₇ hv hw₇ h₇
      | overflow g r =>
          obtain ⟨hg, hname, hlen⟩ := hr.placed
          have hgen : overflow_generation (Placement.overflow g r).marker = some g :=
            overflow_generation_marker hg
          rw [hgen]
          show C.Safe t ((or_panic (H.name g) >>= _) >>= f).run Q w₅
          rw [hname]
          show C.Safe t ((ShmRegion.read_overflow r.name body.length >>= _) >>= f).run Q w₅
          rw [bind_assoc]
          exact read_overflow (f := fun bytes => f (v, bytes)) ht h₅ hlen herr
            fun w₆ hw₆ h₆ => hk v w₆ hv hw₆ h₆

end Lease
end SlotBus
