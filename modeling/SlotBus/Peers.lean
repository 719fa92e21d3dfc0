import SlotBus.Geometry

/-!
# The peers of one control region

Hubs and workers come and go while the control region of one prefix and name lives on: a hub creates
the region or adopts the one that has the name, a worker opens it, a clean drop of the creator's
handle releases the name, and a hard kill releases nothing.

* `Host` — the operating system's view and the live handles; `create`, `open_region`, `drop_handle`
  and `kill` are the operations of the peers;
* `OneLayout` — the header of a mapped region describes the layout of every live handle to it;
  `OneLayout.step` — every event keeps this, as long as a hub does not lay out anew what somebody
  maps;
* `live_handles_share_layout` — **then all live handles of a region have one layout, in every
  history.**
-/

namespace SlotBus

open ByteMemory

/-! ### The operating system -/

/-- A shared memory object. -/
structure Object where
  len : ℕ
  bytes : Memory

/-- A live handle to a control region; the handle that created the object owns its name. -/
structure Handle where
  object : ℕ
  owner : Bool
  region : ShmRegion

/-- The object that has the name of the control region, all objects so far, and the live handles. -/
structure Host where
  name : Option ℕ
  objects : ℕ → Object
  next : ℕ
  handles : List Handle

/-- What the operating system decides about an operation: which of its calls fail, by how much a new
mapping is larger than asked for, and where it is mapped. -/
structure Os where
  create_error : Option SlotBusError
  retry_error : Option SlotBusError
  reclaim_fails : Bool
  open_error : Option SlotBusError
  event_error : Option SlotBusError
  rounding : ℕ
  ptr : ℕ
  region_name : String

namespace Host

/-! ### The operations of the peers -/

/-- One `create` attempt; `none` means the name is already taken. -/
def try_create_exclusive (os : Os) (error : Option SlotBusError) (size : ℕ) (H : Host) :
    Except SlotBusError (Option Handle) × Host :=
  match error with
  | some e => (.error e, H)
  | none =>
      match H.name with
      | some _ => (.ok none, H)
      | none =>
          (.ok (some ⟨H.next, true, ⟨os.ptr, size + os.rounding, os.region_name, 0, 0, 0⟩⟩),
            { H with
              name := some H.next
              objects := Function.update H.objects H.next ⟨size + os.rounding, fun _ => 0⟩
              next := H.next + 1 })

/-- Somebody maps the object. -/
def Held (H : Host) (object : ℕ) : Prop := ∃ h ∈ H.handles, h.object = object

instance (H : Host) (object : ℕ) : Decidable (H.Held object) :=
  inferInstanceAs (Decidable (∃ h ∈ H.handles, _))

/-- Remove an object that nobody holds; only Windows can tell. -/
def reclaim_orphaned_backing_file (target : Target) (os : Os) (H : Host) : Bool × Host :=
  match target, H.name with
  | .windows, some object =>
      if H.Held object ∨ os.reclaim_fails then (false, H) else (true, { H with name := none })
  | _, _ => (false, H)

/-- Create the region, reclaiming the name once if only an orphan holds it. -/
def create_exclusive (target : Target) (os : Os) (size : ℕ) (H : Host) :
    Except SlotBusError (Option Handle) × Host :=
  match H.try_create_exclusive os os.create_error size with
  | (.ok none, H) =>
      match H.reclaim_orphaned_backing_file target os with
      | (true, H) => H.try_create_exclusive os os.retry_error size
      | (false, H) => (.ok none, H)
  | result => result

/-- `ShmRegion::open`. -/
def open_ (os : Os) (H : Host) : Except SlotBusError Handle :=
  match H.name with
  | none => .error (.SharedMemory s!"open '{os.region_name}': no such region")
  | some object =>
      match os.open_error with
      | some e => .error e
      | none => .ok ⟨object, false, ⟨os.ptr, (H.objects object).len, os.region_name, 0, 0, 0⟩⟩

/-- `ShmRegion::create_or_open`. -/
def create_or_open (target : Target) (os : Os) (size : ℕ) (H : Host) :
    Except SlotBusError Handle × Host :=
  match H.create_exclusive target os size with
  | (.error e, H) => (.error e, H)
  | (.ok (some h), H) => (.ok h, H)
  | (.ok none, H) => (H.open_ os, H)

/-- Dropping a handle: the owner releases the name. -/
def release (h : Handle) (H : Host) : Host :=
  if h.owner ∧ H.name = some h.object then { H with name := none } else H

/-- `SlotBus::create`. -/
def create (target : Target) (os : Os) (config : SlotBusConfig) (H : Host) :
    Except SlotBusError Unit × Host :=
  match H.create_or_open target os config.region_size with
  | (.error e, H) => (.error e, H)
  | (.ok h, H) =>
      match h.region.init_control config (H.objects h.object).bytes with
      | .error e => (.error e, H.release h)
      | .ok (region, bytes) =>
          let H := { H with
            objects := Function.update H.objects h.object
              { H.objects h.object with bytes := bytes } }
          -- the events come last; without them the handle is dropped again
          match os.event_error with
          | some e => (.error e, H.release h)
          | none => (.ok (), { H with handles := { h with region := region } :: H.handles })

/-- `SlotWorker::open`. -/
def open_region (os : Os) (H : Host) : Except SlotBusError Unit × Host :=
  match H.open_ os with
  | .error e => (.error e, H)
  | .ok h =>
      match h.region.validate_control (H.objects h.object).bytes with
      | .error e => (.error e, H.release h)
      | .ok region =>
          match os.event_error with
          | some e => (.error e, H.release h)
          | none => (.ok (), { H with handles := { h with region := region } :: H.handles })

/-- A clean drop of a live handle. -/
def drop_handle (i : ℕ) (H : Host) : Host :=
  match H.handles[i]? with
  | some h => { H with handles := H.handles.eraseIdx i }.release h
  | none => H

/-- A hard kill of the process that holds a handle: the name stays. -/
def kill (i : ℕ) (H : Host) : Host := { H with handles := H.handles.eraseIdx i }

end Host

/-- What happens to a control region. -/
inductive PeerEvent where
  | create (os : Os) (config : SlotBusConfig)
  | open_region (os : Os)
  | drop_handle (i : ℕ)
  | kill (i : ℕ)

/-- The state after an event. -/
def Host.after (target : Target) (H : Host) : PeerEvent → Host
  | .create os config => (H.create target os config).2
  | .open_region os => (H.open_region os).2
  | .drop_handle i => H.drop_handle i
  | .kill i => H.kill i

/-- What the builder produces, with a region size that fits the header. -/
structure SlotBusConfig.Buildable (config : SlotBusConfig) : Prop where
  num_slots_pos : 1 ≤ config.num_slots
  num_slots_le : config.num_slots ≤ 256
  region_size_lt : config.region_size < 2 ^ 32

/-- The layout a configuration asks for is the one of the handle. -/
def Handle.HasLayout (h : Handle) (config : SlotBusConfig) : Prop :=
  h.region.num_slots = config.num_slots ∧
    (h.region.heap_offset, h.region.heap_size) = compute_layout config.num_slots config.region_size

/-- If the region that has the name is large enough for the configuration, then everybody who maps
it has that very layout. -/
def Host.Undisturbed (H : Host) (config : SlotBusConfig) : Prop :=
  ∀ object, H.name = some object →
    max config.region_size (SHM_HEADER_SIZE + config.num_slots * SLOT_META_SIZE) ≤
      (H.objects object).len →
    ∀ h ∈ H.handles, h.object = object → h.HasLayout config

/-- An event with a configuration of the builder. -/
def PeerEvent.Buildable : PeerEvent → Prop
  | .create _ config => config.Buildable
  | _ => True

/-- A hub that does not lay out anew what somebody maps. -/
def PeerEvent.Undisturbing (H : Host) : PeerEvent → Prop
  | .create _ config => H.Undisturbed config
  | _ => True

/-- One event of a history, under a condition on it and the state before. -/
def Host.Step (target : Target) (allowed : Host → PeerEvent → Prop) (H H' : Host) : Prop :=
  ∃ e : PeerEvent, e.Buildable ∧ allowed H e ∧ H' = H.after target e

/-- Nobody has opened the region; the name may be taken by anything. -/
structure Host.Unopened (H : Host) : Prop where
  handles : H.handles = []
  name_lt : ∀ object, H.name = some object → object < H.next

/-! ### What the operations change -/

/-- What looking for a region does: the handles and the objects so far stay, and the name goes, or
goes to a new object. -/
structure Grown (H H' : Host) : Prop where
  handles : H'.handles = H.handles
  next_le : H.next ≤ H'.next
  objects : ∀ object < H.next, H'.objects object = H.objects object
  name : ∀ object, H'.name = some object → H.name = some object ∨ H.next ≤ object ∧ object < H'.next

namespace Grown

variable {H H' H'' : Host}

theorem refl (H : Host) : Grown H H := ⟨rfl, le_rfl, fun _ _ => rfl, fun _ h => .inl h⟩

theorem trans (h : Grown H H') (h' : Grown H' H'') : Grown H H'' where
  handles := h'.handles.trans h.handles
  next_le := h.next_le.trans h'.next_le
  objects object hlt := (h'.objects object (hlt.trans_le h.next_le)).trans (h.objects object hlt)
  name object hname := by
    rcases h'.name object hname with hold | ⟨hge, hlt⟩
    · rcases h.name object hold with hold | ⟨hge, hlt⟩
      · exact .inl hold
      · exact .inr ⟨hge, hlt.trans_le h'.next_le⟩
    · exact .inr ⟨h.next_le.trans hge, hlt⟩

/-- Giving the name up. -/
theorem of_name_none (H : Host) : Grown H { H with name := none } :=
  ⟨rfl, le_rfl, fun _ _ => rfl, fun _ h => by cases h⟩

end Grown

namespace Host

variable {target : Target} {os : Os}

theorem release_grown (h : Handle) (H : Host) : Grown H (H.release h) := by
  unfold release
  split
  · exact .of_name_none H
  · exact .refl H

theorem try_create_exclusive_spec (os : Os) (error : Option SlotBusError) (size : ℕ) (H : Host) :
    Grown H (H.try_create_exclusive os error size).2 ∧
      ∀ h, (H.try_create_exclusive os error size).1 = .ok (some h) →
        h.object = H.next ∧ h.object < (H.try_create_exclusive os error size).2.next ∧
          h.region.len = ((H.try_create_exclusive os error size).2.objects h.object).len := by
  unfold try_create_exclusive
  cases error with
  | some e => exact ⟨.refl H, fun h hh => by cases hh⟩
  | none =>
      cases hname : H.name with
      | some object => exact ⟨.refl H, fun h hh => by cases hh⟩
      | none =>
          refine ⟨⟨rfl, Nat.le_succ _, fun object hlt => ?_, fun object hobject => ?_⟩,
            fun h hh => ?_⟩
          · exact Function.update_of_ne (by omega) _ _
          · obtain rfl := Option.some.inj hobject
            exact .inr ⟨le_rfl, Nat.lt_succ_self _⟩
          · obtain rfl := Option.some.inj (Except.ok.inj hh)
            exact ⟨rfl, Nat.lt_succ_self _, by simp⟩

theorem reclaim_grown (target : Target) (os : Os) (H : Host) :
    Grown H (H.reclaim_orphaned_backing_file target os).2 := by
  unfold reclaim_orphaned_backing_file
  split
  · split
    · exact .refl H
    · exact .of_name_none H
  · exact .refl H

theorem open_spec {H : Host} {h : Handle} (hopen : H.open_ os = .ok h) :
    H.name = some h.object ∧ h.region.len = (H.objects h.object).len := by
  unfold open_ at hopen
  split at hopen
  · cases hopen
  · rename_i object hname
    split at hopen
    · cases hopen
    · obtain rfl := Except.ok.inj hopen
      exact ⟨hname, rfl⟩

/-- A handle to a new object, or to the one that has the name. -/
structure Obtained (H H' : Host) (h : Handle) : Prop where
  grown : Grown H H'
  object_lt : (∀ object, H.name = some object → object < H.next) → h.object < H'.next
  len : h.region.len = (H'.objects h.object).len
  origin : H.name = some h.object ∨ H.next ≤ h.object

theorem create_exclusive_spec (target : Target) (os : Os) (size : ℕ) (H : Host) :
    Grown H (H.create_exclusive target os size).2 ∧
      ∀ h, (H.create_exclusive target os size).1 = .ok (some h) →
        Obtained H (H.create_exclusive target os size).2 h := by
  have hfirst := try_create_exclusive_spec os os.create_error size H
  unfold create_exclusive
  generalize H.try_create_exclusive os os.create_error size = first at hfirst
  obtain ⟨hgrown, hnew⟩ := hfirst
  rcases first with ⟨_ | (_ | h), H₁⟩
  · exact ⟨hgrown, fun h hh => by cases hh⟩
  · dsimp only at hgrown ⊢
    have hreclaim := reclaim_grown target os H₁
    generalize H₁.reclaim_orphaned_backing_file target os = reclaimed at hreclaim
    rcases reclaimed with ⟨_ | _, H₂⟩
    · exact ⟨hgrown.trans hreclaim, fun h hh => by cases hh⟩
    · obtain ⟨hretry, hnew⟩ := try_create_exclusive_spec os os.retry_error size H₂
      have hgrown₂ : Grown H H₂ := hgrown.trans hreclaim
      refine ⟨hgrown₂.trans hretry, fun h hh => ?_⟩
      obtain ⟨hobject, hlt, hlen⟩ := hnew h hh
      exact ⟨hgrown₂.trans hretry, fun _ => hlt, hlen, .inr (hobject ▸ hgrown₂.next_le)⟩
  · refine ⟨hgrown, fun k hk => ?_⟩
    obtain ⟨hobject, hlt, hlen⟩ := hnew k hk
    exact ⟨hgrown, fun _ => hlt, hlen, .inr hobject.ge⟩

theorem create_or_open_spec (target : Target) (os : Os) (size : ℕ) (H : Host) :
    Grown H (H.create_or_open target os size).2 ∧
      ∀ h, (H.create_or_open target os size).1 = .ok h →
        Obtained H (H.create_or_open target os size).2 h := by
  have hcreate := create_exclusive_spec target os size H
  unfold create_or_open
  generalize H.create_exclusive target os size = created at hcreate
  obtain ⟨hgrown, hnew⟩ := hcreate
  rcases created with ⟨_ | (_ | h), H₁⟩
  · exact ⟨hgrown, fun h hh => by cases hh⟩
  · refine ⟨hgrown, fun h hh => ?_⟩
    obtain ⟨hname, hlen⟩ := open_spec hh
    rcases hgrown.name _ hname with hold | ⟨hge, hlt⟩
    · exact ⟨hgrown, fun hlt => (hlt _ hold).trans_le hgrown.next_le, hlen, .inl hold⟩
    · exact ⟨hgrown, fun _ => hlt, hlen, .inr hge⟩
  · refine ⟨hgrown, fun k hk => ?_⟩
    obtain rfl := Except.ok.inj hk
    exact hnew _ rfl

end Host

/-! ### One layout -/

/-- The header describes the layout of a handle. -/
def Describes (mem : Memory) (region : ShmRegion) : Prop :=
  load mem 8 4 = region.num_slots ∧ load mem 12 4 = region.heap_offset ∧
    load mem 16 4 = region.heap_size

/-- The invariant: every live handle has the layout that is written in the header of the object it
maps. -/
structure OneLayout (H : Host) : Prop where
  name_lt : ∀ object, H.name = some object → object < H.next
  object_lt : ∀ h ∈ H.handles, h.object < H.next
  header : ∀ h ∈ H.handles, Describes (H.objects h.object).bytes h.region

theorem init_control_describes {raw region : ShmRegion} {config : SlotBusConfig} {old mem : Memory}
    (h : raw.init_control config old = .ok (region, mem)) (hconfig : config.Buildable) :
    Describes mem region := by
  obtain ⟨-, -, hslots, hoffset, hsize⟩ := init_control_header h
  obtain ⟨hslots', hoffset', hsize'⟩ := init_control_layout h
  have hmax := hconfig.num_slots_le
  have hlt := hconfig.region_size_lt
  simp only [SHM_HEADER_SIZE, SLOT_META_SIZE] at hoffset'
  rw [Nat.mod_eq_of_lt (by omega)] at hslots hoffset hsize
  exact ⟨hslots, hoffset, hsize⟩

theorem validate_control_describes {raw region : ShmRegion} {mem : Memory}
    (h : raw.validate_control mem = .ok region) : Describes mem region := by
  obtain ⟨hslots, hoffset, hsize⟩ := validate_control_layout h
  exact ⟨hslots.symm, hoffset.symm, hsize.symm⟩

/-- Two layouts that ask for the same numbers. -/
theorem Handle.HasLayout.describes {h : Handle} {raw region : ShmRegion}
    {config : SlotBusConfig} {old mem : Memory} (hlayout : h.HasLayout config)
    (hinit : raw.init_control config old = .ok (region, mem)) (hregion : Describes mem region) :
    Describes mem h.region := by
  obtain ⟨hslots, hheap⟩ := hlayout
  obtain ⟨hoffset, hsize⟩ := Prod.mk.inj hheap
  obtain ⟨hslots', hoffset', hsize'⟩ := init_control_layout hinit
  refine ⟨hregion.1.trans (hslots'.trans hslots.symm),
    hregion.2.1.trans (hoffset'.trans hoffset.symm),
    hregion.2.2.trans ?_⟩
  rw [hsize', hsize, hoffset']

namespace OneLayout

variable {H H' : Host}

theorem of_unopened (h : H.Unopened) : OneLayout H where
  name_lt := h.name_lt
  object_lt k hk := by simp [h.handles] at hk
  header k hk := by simp [h.handles] at hk

theorem grown (h : OneLayout H) (hgrown : Grown H H') : OneLayout H' where
  name_lt object hname := by
    rcases hgrown.name object hname with hold | ⟨-, hlt⟩
    · exact (h.name_lt object hold).trans_le hgrown.next_le
    · exact hlt
  object_lt k hk := (h.object_lt k (hgrown.handles ▸ hk)).trans_le hgrown.next_le
  header k hk := by
    rw [hgrown.handles] at hk
    rw [hgrown.objects _ (h.object_lt k hk)]
    exact h.header k hk

/-- Handles may go. -/
theorem of_subset {handles : List Handle} (h : OneLayout H) (hsub : ∀ k ∈ handles, k ∈ H.handles) :
    OneLayout { H with handles := handles } :=
  ⟨h.name_lt, fun k hk => h.object_lt k (hsub k hk), fun k hk => h.header k (hsub k hk)⟩

/-- A handle to a described object may come. -/
theorem cons {k : Handle} (h : OneLayout H) (hlt : k.object < H.next)
    (hheader : Describes (H.objects k.object).bytes k.region) :
    OneLayout { H with handles := k :: H.handles } where
  name_lt := h.name_lt
  object_lt l hl := by
    rcases List.mem_cons.mp hl with rfl | hl
    · exact hlt
    · exact h.object_lt l hl
  header l hl := by
    rcases List.mem_cons.mp hl with rfl | hl
    · exact hheader
    · exact h.header l hl

/-- An object may be laid out anew if that changes nothing for those who map it. -/
theorem rewrite {object : ℕ} {bytes : Memory} (h : OneLayout H)
    (hbytes : ∀ k ∈ H.handles, k.object = object → Describes bytes k.region) :
    OneLayout { H with
      objects := Function.update H.objects object { H.objects object with bytes := bytes } } where
  name_lt := h.name_lt
  object_lt := h.object_lt
  header k hk := by
    by_cases hobject : k.object = object
    · show Describes (Function.update H.objects object _ k.object).bytes k.region
      rw [hobject, Function.update_self]
      exact hbytes k hk hobject
    · show Describes (Function.update H.objects object _ k.object).bytes k.region
      rw [Function.update_of_ne hobject]
      exact h.header k hk

end OneLayout

/-- `SlotBus::create` keeps one layout if nobody who maps the region expects another one. -/
theorem OneLayout.create {H : Host} (h : OneLayout H) {target : Target} {os : Os}
    {config : SlotBusConfig} (hconfig : config.Buildable) (hundisturbed : H.Undisturbed config) :
    OneLayout (H.create target os config).2 := by
  obtain ⟨hgrown, hobtained⟩ := Host.create_or_open_spec target os config.region_size H
  unfold Host.create
  generalize H.create_or_open target os config.region_size = found at hgrown hobtained
  rcases found with ⟨_ | k, H₁⟩
  · exact h.grown hgrown
  · have hk := hobtained k rfl
    have hH₁ : OneLayout H₁ := h.grown hgrown
    cases hinit : k.region.init_control config (H₁.objects k.object).bytes with
    | error e =>
        simp only [hinit]
        exact hH₁.grown (Host.release_grown k H₁)
    | ok laid_out =>
        obtain ⟨region, bytes⟩ := laid_out
        have hregion := init_control_describes hinit hconfig
        -- whoever maps the object has mapped it before, so the hub has adopted it
        have hdescribes : ∀ l ∈ H₁.handles, l.object = k.object → Describes bytes l.region := by
          intro l hl hobject
          rw [hgrown.handles] at hl
          have hlt := hobject ▸ h.object_lt l hl
          have hname := hk.origin.resolve_right (by omega)
          have hfits := ShmRegion.init_control_fits.mp ⟨_, hinit⟩
          rw [hk.len, hgrown.objects _ hlt] at hfits
          exact (hundisturbed _ hname hfits l hl hobject).describes hinit hregion
        have hrewritten := hH₁.rewrite hdescribes
        cases hevent : os.event_error with
        | some e =>
            simp only [hinit]
            exact hrewritten.grown (Host.release_grown k _)
        | none =>
            simp only [hinit]
            refine hrewritten.cons (k := { k with region := region }) (hk.object_lt h.name_lt) ?_
            simpa using hregion

/-- `SlotWorker::open` takes the layout from the header. -/
theorem OneLayout.open_region {H : Host} (h : OneLayout H) {os : Os} :
    OneLayout (H.open_region os).2 := by
  unfold Host.open_region
  cases hopen : H.open_ os with
  | error e => exact h
  | ok k =>
      obtain ⟨hname, -⟩ := Host.open_spec hopen
      cases hvalidate : k.region.validate_control (H.objects k.object).bytes with
      | error e =>
          simp only [hvalidate]
          exact h.grown (Host.release_grown k H)
      | ok region =>
          cases hevent : os.event_error with
          | some e =>
              simp only [hvalidate]
              exact h.grown (Host.release_grown k H)
          | none =>
              simp only [hvalidate]
              exact h.cons (k := { k with region := region }) (h.name_lt _ hname)
                (validate_control_describes hvalidate)

/-- **One event.** -/
theorem OneLayout.after {H : Host} (h : OneLayout H) {target : Target}
    {e : PeerEvent} (he : e.Buildable) (hundisturbing : e.Undisturbing H) :
    OneLayout (H.after target e) := by
  cases e with
  | create os config => exact h.create he hundisturbing
  | open_region os => exact h.open_region
  | drop_handle i =>
      simp only [Host.after, Host.drop_handle]
      split
      · exact (h.of_subset fun k => List.mem_of_mem_eraseIdx).grown (Host.release_grown _ _)
      · exact h
  | kill i => exact h.of_subset fun k => List.mem_of_mem_eraseIdx

theorem OneLayout.run {target : Target} {H₀ H : Host} (hstart : H₀.Unopened)
    (hrun : Relation.ReflTransGen (Host.Step target fun H e => e.Undisturbing H) H₀ H) :
    OneLayout H := by
  induction hrun with
  | refl => exact .of_unopened hstart
  | tail _ hstep ih =>
      obtain ⟨e, he, hundisturbing, rfl⟩ := hstep
      exact ih.after he hundisturbing

/-- Any two live handles to one object agree on where everything is. -/
def Host.LayoutShared (H : Host) : Prop :=
  ∀ h ∈ H.handles, ∀ k ∈ H.handles, h.object = k.object →
    h.region.num_slots = k.region.num_slots ∧ h.region.heap_offset = k.region.heap_offset ∧
      h.region.heap_size = k.region.heap_size ∧ ∀ i, h.region.slot_arenas i = k.region.slot_arenas i

theorem OneLayout.shared {H : Host} (hone : OneLayout H) : H.LayoutShared := by
  intro h hh k hk hobject
  obtain ⟨hslots, hoffset, hsize⟩ := hone.header h hh
  obtain ⟨hslots', hoffset', hsize'⟩ := hone.header k hk
  rw [hobject] at hslots hoffset hsize
  have hn := hslots.symm.trans hslots'
  have hs := hsize.symm.trans hsize'
  refine ⟨hn, hoffset.symm.trans hoffset', hs, fun i => ?_⟩
  rw [ShmRegion.slot_arenas, ShmRegion.slot_arenas, hn, hs]

/-- **Live handles share one layout** in every history in which no hub lays out anew what somebody
maps. -/
theorem live_handles_share_layout {target : Target} {H₀ H : Host} (hstart : H₀.Unopened)
    (hrun : Relation.ReflTransGen (Host.Step target fun H e => e.Undisturbing H) H₀ H) :
    H.LayoutShared :=
  (OneLayout.run hstart hrun).shared

/-! ### A small host -/

/-- No region has the name. -/
def small_host : Host := ⟨none, fun _ => ⟨0, fun _ => 0⟩, 0, []⟩

/-- An operating system on which nothing fails. -/
def small_os : Os := ⟨none, none, false, none, none, 0, 0, "p-n"⟩

theorem small_host_unopened : small_host.Unopened := ⟨rfl, fun _ h => by cases h⟩

theorem small_host_undisturbed (config : SlotBusConfig) : small_host.Undisturbed config :=
  fun _ h => by cases h

theorem small_config_buildable : small_config.Buildable := ⟨by decide, by decide, by decide⟩

theorem live_handles_share_layout_small :
    ∃ H : Host, Relation.ReflTransGen (Host.Step .linux fun H e => e.Undisturbing H) small_host H ∧
      H.handles.length = 2 ∧ H.LayoutShared := by
  have hrun : Relation.ReflTransGen (Host.Step .linux fun H e => e.Undisturbing H) small_host
      ((small_host.after .linux (.create small_os small_config)).after .linux
      (.open_region small_os)) :=
    .tail (.single ⟨.create small_os small_config, small_config_buildable,
      small_host_undisturbed _, rfl⟩)
      ⟨.open_region small_os, trivial, trivial, rfl⟩
  exact ⟨_, hrun, rfl, live_handles_share_layout small_host_unopened hrun⟩

/-- The configuration of a second hub of the same name, with a smaller region. -/
def smaller_config : SlotBusConfig := { small_config with region_size := 200 }

/-- **A second hub gives a region that the first one still maps another layout.** -/
theorem adopted_region_laid_out_anew :
    ¬ ∀ (target : Target) (H : Host),
      Relation.ReflTransGen (Host.Step target fun _ _ => True) small_host H → H.LayoutShared := by
  intro hall
  have hrun : Relation.ReflTransGen (Host.Step .linux fun _ _ => True) small_host
      ((small_host.after .linux (.create small_os small_config)).after .linux
      (.create small_os smaller_config)) :=
    .tail (.single ⟨.create small_os small_config, small_config_buildable, trivial, rfl⟩)
      ⟨.create small_os smaller_config, ⟨by decide, by decide, by decide⟩, trivial, rfl⟩
  have hshared := hall .linux _ hrun
  have hhandles : ((small_host.after .linux (.create small_os small_config)).after .linux
      (.create small_os smaller_config)).handles =
      [⟨0, false, ⟨0, 256, "p-n", 1, 192, 8⟩⟩, ⟨0, true, ⟨0, 256, "p-n", 1, 192, 64⟩⟩] := rfl
  have hsizes := (hshared ⟨0, false, ⟨0, 256, "p-n", 1, 192, 8⟩⟩ (hhandles ▸ List.mem_cons_self)
    ⟨0, true, ⟨0, 256, "p-n", 1, 192, 64⟩⟩
      (hhandles ▸ List.mem_cons_of_mem _ List.mem_cons_self) rfl).2.2.1
  exact absurd hsizes (by decide)

end SlotBus
