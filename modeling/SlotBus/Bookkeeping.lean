import SlotBus.Sessions
import SlotBus.Foundation.HoareTriple

/-!
# The books of the overflow regions

When a bus and one worker execute one operation after the other and nobody else uses their overflow
names, one can keep books of the overflow regions: who holds which region, which regions are in the
two overflow maps, and which markers say that there is a region.

* `Books` — the books: every region has its name of generation 0, and the overflow names that are
  taken are theirs;
* `Books.spare`, `Books.remove`, `Books.put`, `Books.created_region`, `Books.write_marker` — what
  single actions do to the books;
* `write_payload_books` — **placing a payload** for a slot without a region opens at most one, at
  generation 0.
-/

namespace SlotBus

open ByteMemory AtomicProgram AtomicProgram.Program

/-! ### Markers -/

/-- Where the overflow marker of a direction and slot is. -/
def marker_address (d : Direction) (i : ℕ) : ℕ := slot_address i + (d.fields + 16)

theorem marker_address_injective {d e : Direction} {i j : ℕ}
    (h : marker_address d i = marker_address e j) :
    d = e ∧ i = j := by
  unfold marker_address slot_address at h
  simp only [SHM_HEADER_SIZE, SLOT_META_SIZE] at h
  cases d with
  | request =>
      cases e with
      | request => exact ⟨rfl, by omega⟩
      | response => exact absurd h (by simp only [Direction.fields]; omega)
  | response =>
      cases e with
      | request => exact absurd h (by simp only [Direction.fields]; omega)
      | response => exact ⟨rfl, by omega⟩

/-- The side whose overflow map has the regions of a direction. -/
def Direction.side (worker : ℕ) : Direction → Side
  | .request => .hub
  | .response => .worker worker

theorem Direction.side_injective {worker : ℕ} {d e : Direction}
    (h : d.side worker = e.side worker) : d = e := by
  cases d <;> cases e <;> first | rfl | cases h

/-! ### Generation 0 -/

namespace Deployment

variable (D : Deployment)

/-- The overflow names of the bus. -/
def OverflowName (n : String) : Prop :=
  ∃ (d : Direction) (i g : ℕ), i < D.num_slots ∧ g ≤ MAX_OVERFLOW_GENERATION ∧
    d.overflow_name_gen D.config D.target i g = some n

/-- Generation 0 only: a region is created under a name of generation 0, and what is written to a
marker is that there is no region, or the marker of generation 0. -/
def AtGenerationZero : Action → Prop
  | .shm_create n _ =>
      ∃ (d : Direction) (i : ℕ), i < D.num_slots ∧
        d.overflow_name_gen D.config D.target i 0 = some n
  | .write x bytes => ∀ d i, i < D.num_slots → marker_address d i ∈ span x bytes.length →
      bytes = [OVERFLOW_INLINE] ∨ bytes = [1]
  | _ => True

end Deployment

/-- A region for some of the directions and slots. -/
abbrev Holdings := Direction → ℕ → Option OverflowRegion

namespace Holdings

def set (h : Holdings) (d : Direction) (i : ℕ) (o : Option OverflowRegion) : Holdings :=
  Function.update h d (Function.update (h d) i o)

variable {h : Holdings} {d e : Direction} {i j : ℕ} {o : Option OverflowRegion}

theorem set_self : h.set d i o d i = o := by
  rw [set, Function.update_self, Function.update_self]

theorem set_of_ne (hne : ¬(e = d ∧ j = i)) : h.set d i o e j = h e j := by
  unfold set
  by_cases he : e = d
  · subst he
    rw [Function.update_self, Function.update_of_ne fun hj => hne ⟨rfl, hj⟩]
  · rw [Function.update_of_ne he]

/-- What is held after an entry has been set was held before, or is the new entry. -/
theorem set_cases {r : OverflowRegion} (hset : h.set d i o e j = some r) :
    (e = d ∧ j = i ∧ o = some r) ∨ (¬(e = d ∧ j = i) ∧ h e j = some r) := by
  by_cases heq : e = d ∧ j = i
  · obtain ⟨rfl, rfl⟩ := heq
    exact .inl ⟨rfl, rfl, set_self.symm.trans hset⟩
  · rw [set_of_ne heq] at hset
    exact .inr ⟨heq, hset⟩

end Holdings

/-- The state of the overflow regions: which are held, in a map or in a local variable; which
entries the maps have; and which markers say that there is a region. -/
structure Books (D : Deployment) (worker : ℕ) (held maps : Holdings)
    (marked : Set (Direction × ℕ)) (w : World) : Prop where
  slot_lt : ∀ d i r, held d i = some r → i < D.num_slots
  named : ∀ d i r, held d i = some r → d.overflow_name_gen D.config D.target i 0 = some r.name
  stands : ∀ d i r, held d i = some r → w.names r.name = some r.segment
  live : ∀ n, D.OverflowName n → w.names n ≠ none → ∃ d i r, held d i = some r ∧ r.name = n
  maps : ∀ d i, w.overflow_regions (d.side worker) i = maps d i
  marked : ∀ d i, (d, i) ∈ marked → i < D.num_slots ∧ w.mem (marker_address d i) = 1
  logged : ∀ e ∈ w.log, D.AtGenerationZero e.action

/-! ### Single actions -/

/-- An action without effect on the overflow regions and their maps. -/
def Action.Calm : Action → Prop
  | .shm_create _ _ | .shm_reclaim _ | .shm_drop _ | .overflow_remove
      _ _ | .overflow_insert _ _ _ => False
  | _ => True

/-- Such an action that leaves the markers alone, too. -/
def Deployment.Spares (D : Deployment) (a : Action) : Prop :=
  a.Calm ∧ ∀ d i, i < D.num_slots → marker_address d i ∉ a.written

theorem marker_not_status (d : Direction) (i j : ℕ) : marker_address d i ∉ status_word j := by
  intro h
  rw [status_word, mem_span] at h
  unfold marker_address slot_address at h
  simp only [SHM_HEADER_SIZE, SLOT_META_SIZE] at h
  cases d <;> simp only [Direction.fields] at h <;> omega

section Books

variable {D : Deployment} {worker : ℕ} {held maps : Holdings}
    {marked : Set (Direction × ℕ)} {w w' : World}
  {a : Action} {c : Choice} {t : Thread} {r : Answer a}

theorem Deployment.Spares.at_zero (h : D.Spares a) : D.AtGenerationZero a := by
  cases a with
  | write x bytes => exact fun d i hi hx => absurd hx (h.2 d i hi)
  | shm_create n size => exact h.1.elim
  | _ => trivial

theorem Books.log_cons (h : Books D worker held maps marked w) (ha : D.AtGenerationZero a) :
    ∀ e ∈ (⟨t, a, r⟩ : Entry) :: w.log, D.AtGenerationZero e.action := by
  intro e he
  cases List.mem_cons.mp he with
  | inl heq =>
      subst heq
      exact ha
  | inr hold => exact h.logged e hold

/-- What an action leaves that does not concern the regions: only its markers have to be looked
at. -/
theorem Books.calm {marked' : Set (Direction × ℕ)}
    (h : Books D worker held maps marked w) (ha : a.Calm) (hzero : D.AtGenerationZero a)
    (hx : (machine D.target).exec t a c w = some (r, w')) (hmarked : ∀ d i, (d, i) ∈ marked' →
      i < D.num_slots ∧ w'.mem (marker_address d i) = 1) :
    Books D worker held maps marked' w' := by
  have hch := exec_changes hx
  have hnames : ∀ n, w'.names n = w.names n := by
    intro n
    rcases hch.names n with heq | ⟨-, hrel⟩ | ⟨size, rfl, -⟩
    · exact heq
    · cases hrel <;> exact ha.elim
    · exact ha.elim
  have hmaps : ∀ side i, w'.overflow_regions side i = w.overflow_regions side i := by
    intro side i
    rcases hch.overflow_regions side i with heq | ⟨rfl, -⟩ | ⟨_, rfl, -⟩
    · exact heq
    · exact ha.elim
    · exact ha.elim
  refine ⟨h.slot_lt, h.named, ?_, ?_, ?_, hmarked, ?_⟩
  · intro d i q hq
    rw [hnames]
    exact h.stands d i q hq
  · intro n hn hlive
    rw [hnames] at hlive
    exact h.live n hn hlive
  · intro d i
    rw [hmaps]
    exact h.maps d i
  · rw [hch.log]
    exact h.log_cons hzero

theorem Books.spare (h : Books D worker held maps marked w) (ha : D.Spares a)
    (hx : (machine D.target).exec t a c w = some (r, w')) : Books D worker held maps marked w' := by
  refine h.calm ha.1 ha.at_zero hx fun d i hmark => ?_
  obtain ⟨hi, hone⟩ := h.marked d i hmark
  refine ⟨hi, ?_⟩
  rw [(exec_changes hx).mem _ (ha.2 d i hi) fun j _ => marker_not_status d i j]
  exact hone

/-- A program of such actions. -/
theorem Books.keep {α : Type} {p : Program bus α} (hp : p.Confined D.Spares) :
    Triple (machine D.target) (Books D worker held maps marked) p fun _ =>
      Books D worker held maps marked :=
  .of_confined hp fun _ _ _ _ _ _ ha hx h => h.spare ha hx

/-- The overflow maps after one entry has been replaced. -/
theorem set_overflow_side (w : World) (worker : ℕ) (d e : Direction) (i j : ℕ)
    (o : Option OverflowRegion) :
    (w.set_overflow (d.side worker) i o).overflow_regions (e.side worker) j =
      Holdings.set (fun d i => w.overflow_regions (d.side worker) i) d i o e j := by
  by_cases he : e = d
  · subst he
    by_cases hj : j = i
    · subst hj
      rw [Holdings.set_self, World.set_overflow]
      simp
    · rw [Holdings.set_of_ne fun h => hj h.2, World.set_overflow]
      simp [hj]
  · rw [Holdings.set_of_ne fun h => he h.1, World.set_overflow]
    simp [Direction.side_injective.mt he]

/-- The names after the region of an entry has been dropped. -/
theorem Books.drop_names (h : Books D worker held maps marked w) {d : Direction} {i : ℕ}
    (hmap : maps d i = held d i) (n : String) :
    (w.drop_option (w.overflow_regions (d.side worker) i)).names n =
      if ∃ r, held d i = some r ∧ r.name = n then none else w.names n := by
  rw [h.maps, hmap]
  cases hheld : held d i with
  | none => simp [World.drop_option]
  | some r =>
      have hstands := h.stands d i r hheld
      show (w.drop_region r).names n = _
      rw [World.drop_region, if_pos hstands]
      by_cases hn : n = r.name
      · subst hn
        simp
      · have hno : ¬∃ q, some r = some q ∧ q.name = n := by
          intro hex
          obtain ⟨q, hq, hqn⟩ := hex
          obtain rfl := Option.some.inj hq
          exact hn hqn.symm
        rw [if_neg hno]
        exact Function.update_of_ne hn _ _

/-- Regions with the same name are one region. -/
theorem Books.one_name (h : Books D worker held maps marked w) (hslots : D.num_slots < 10 ^ 10)
    {d e : Direction} {i j : ℕ} {n : String} {q : OverflowRegion} (hi : i < D.num_slots)
    (hn : d.overflow_name_gen D.config D.target i 0 = some n) (hq : held e j = some q)
    (hname : q.name = n) :
    e = d ∧ j = i := by
  have hj := h.slot_lt e j q hq
  have hq' := h.named e j q hq
  rw [hname] at hq'
  obtain ⟨hd, hij, -⟩ :=
    overflow_name_gen_injective (tailKept_zero _ e (by omega)) (tailKept_zero _ d (by omega))
    hq' hn
  exact ⟨hd, hij⟩

/-- **The region of an entry is dropped**, and the entry is gone. -/
theorem Books.remove (h : Books D worker held held marked w) (hslots : D.num_slots < 10 ^ 10)
    {d : Direction} {i : ℕ} {x : Unit}
    (hx : (machine D.target).exec t (.overflow_remove (d.side worker) i) c w = some (x, w')) :
    Books D worker (held.set d i none) (held.set d i none) (marked \ {(d, i)}) w' := by
  obtain ⟨v, hv, rfl⟩ := exec_iff.mp hx
  obtain ⟨-, rfl⟩ := Prod.mk.inj (Option.some.inj hv)
  have hold : ∀ {e j q}, held.set d i none e j = some q → ¬(e = d ∧ j = i) ∧ held e j = some q := by
    intro e j q hq
    rcases Holdings.set_cases hq with ⟨-, -, hnone⟩ | hold
    · cases hnone
    · exact hold
  have hmem : ∀ side o, (w.drop_option o).set_overflow side i none =
      { (w.drop_option o).set_overflow side i none with
          mem := w.mem, log := w.log } := by
    intro side o
    rw [World.set_overflow, drop_option_eq]
  rw [hmem]
  refine ⟨?_, ?_, ?_, ?_, ?_, ?_, ?_⟩
  · intro e j q hq
    exact h.slot_lt e j q (hold hq).2
  · intro e j q hq
    exact h.named e j q (hold hq).2
  · intro e j q hq
    obtain ⟨hne, hq⟩ := hold hq
    show (w.drop_option (w.overflow_regions (d.side worker) i)).names q.name = some q.segment
    have hother : ¬∃ r, held d i = some r ∧ r.name = q.name := by
      intro hex
      obtain ⟨r, hr, hname⟩ := hex
      obtain ⟨rfl, rfl⟩ := h.one_name hslots (h.slot_lt d i r hr) (h.named d i r hr) hq hname.symm
      exact hne ⟨rfl, rfl⟩
    rw [h.drop_names rfl, if_neg hother]
    exact h.stands e j q hq
  · intro n hn hlive
    have hlive' : (w.drop_option (w.overflow_regions (d.side worker) i)).names n ≠ none := hlive
    rw [h.drop_names rfl] at hlive'
    split at hlive'
    next => exact absurd rfl hlive'
    next hother =>
      obtain ⟨e, j, q, hq, hname⟩ := h.live n hn hlive'
      refine ⟨e, j, q, ?_, hname⟩
      rw [Holdings.set_of_ne]
      · exact hq
      · rintro ⟨rfl, rfl⟩
        exact hother ⟨q, hq, hname⟩
  · intro e j
    show ((w.drop_option _).set_overflow (d.side worker) i none).overflow_regions
        (e.side worker) j = _
    rw [set_overflow_side, drop_option_eq]
    show Holdings.set (fun d i => w.overflow_regions (d.side worker) i) d i none e j =
        held.set d i none e j
    rw [show (fun d i => w.overflow_regions (Direction.side worker d) i) = held from
      funext fun d => funext fun i => h.maps d i]
  · intro e j hmark
    exact h.marked e j hmark.1
  · exact h.log_cons trivial

/-- **A region goes into its entry**, which is empty. -/
theorem Books.put (h : Books D worker held maps marked w) {d : Direction} {i : ℕ}
    (hempty : maps d i = none) {q : OverflowRegion} {x : Unit}
    (hx : (machine D.target).exec t (.overflow_insert (d.side worker) i q) c w = some (x, w')) :
    Books D worker held (maps.set d i (some q)) marked w' := by
  obtain ⟨v, hv, rfl⟩ := exec_iff.mp hx
  obtain ⟨-, rfl⟩ := Prod.mk.inj (Option.some.inj hv)
  rw [h.maps, hempty]
  refine ⟨h.slot_lt, h.named, h.stands, h.live, ?_, h.marked, ?_⟩
  · intro e j
    show (w.set_overflow (d.side worker) i (some q)).overflow_regions (e.side worker) j = _
    rw [set_overflow_side]
    rw [show (fun d i => w.overflow_regions (Direction.side worker d) i) = maps from
      funext fun d => funext fun i => h.maps d i]
  · exact h.log_cons trivial

/-! ### Creating a region -/

/-- What creating a region for an entry that has none leaves. -/
def Created_for (D : Deployment) (worker : ℕ) (held maps : Holdings)
    (marked : Set (Direction × ℕ)) (d : Direction) (i size : ℕ) : Created → World → Prop
  | .region q, w => q.len = size ∧ Books D worker (held.set d i (some q)) maps marked w
  | .mapping_id_exists, _ => False
  | .error _, w => Books D worker held maps marked w

/-- A region for an entry that has none, under its name of generation 0. -/
theorem Books.created_region (h : Books D worker held maps marked w) {d : Direction} {i size : ℕ}
    {n : String} (hslots : D.num_slots < 10 ^ 10) (hi : i < D.num_slots) (hnone : held d i = none)
    (hn : d.overflow_name_gen D.config D.target i 0 = some n) {x : Created}
    (hx : (machine D.target).exec t (.shm_create n size) c w = some (x, w')) :
    Created_for D worker held maps marked d i size x w' := by
  -- the name is free, because no entry but this one could have it
  have hfree : w.names n = none := by
    by_contra hlive
    obtain ⟨e, j, q, hq, hname⟩ := h.live n ⟨d, i, 0, hi, Nat.zero_le _, hn⟩ hlive
    obtain ⟨rfl, rfl⟩ := h.one_name hslots hi hn hq hname
    rw [hnone] at hq
    cases hq
  obtain ⟨v, hv, rfl⟩ := exec_iff.mp hx
  have hzero : D.AtGenerationZero (.shm_create n size) := ⟨d, i, hi, hn⟩
  simp only [effect, hfree, Option.isSome_none, Bool.false_eq_true, if_false] at hv
  split at hv
  next =>
    obtain ⟨rfl, rfl⟩ := Prod.mk.inj (Option.some.inj hv)
    exact ⟨h.slot_lt, h.named, h.stands, h.live, h.maps, h.marked, h.log_cons hzero⟩
  next =>
    obtain ⟨rfl, rfl⟩ := Prod.mk.inj (Option.some.inj hv)
    refine ⟨rfl, ?_, ?_, ?_, ?_, h.maps, h.marked, h.log_cons hzero⟩
    · intro e j q hq
      rcases Holdings.set_cases hq with ⟨-, rfl, -⟩ | ⟨-, hold⟩
      · exact hi
      · exact h.slot_lt e j q hold
    · intro e j q hq
      rcases Holdings.set_cases hq with ⟨rfl, rfl, hnew⟩ | ⟨-, hold⟩
      · obtain rfl := Option.some.inj hnew
        exact hn
      · exact h.named e j q hold
    · intro e j q hq
      show Function.update w.names n (some w.next_segment) q.name = some q.segment
      rcases Holdings.set_cases hq with ⟨rfl, rfl, hnew⟩ | ⟨-, hold⟩
      · obtain rfl := Option.some.inj hnew
        exact Function.update_self _ _ _
      · have hstands := h.stands e j q hold
        have hne : q.name ≠ n := by
          intro heq
          rw [heq, hfree] at hstands
          cases hstands
        rw [Function.update_of_ne hne]
        exact hstands
    · intro m hm hlive
      by_cases heq : m = n
      · subst heq
        exact ⟨d, i, _, Holdings.set_self, rfl⟩
      · have hold : w.names m ≠ none := by
          have hlive' : Function.update w.names n (some w.next_segment) m ≠ none := hlive
          rw [Function.update_of_ne heq] at hlive'
          exact hlive'
        obtain ⟨e, j, q, hq, hname⟩ := h.live m hm hold
        refine ⟨e, j, q, ?_, hname⟩
        rw [Holdings.set_of_ne]
        · exact hq
        · rintro ⟨rfl, rfl⟩
          rw [hnone] at hq
          cases hq

variable {d : Direction} {i : ℕ}

/-- What an attempt for an entry that has no region leaves. -/
def Attempted (D : Deployment) (worker : ℕ) (held maps : Holdings)
    (marked : Set (Direction × ℕ)) (d : Direction) (i size : ℕ) :
    Except SlotBusError (Option OverflowRegion) → World → Prop
  | .ok (some q), w => q.len = size ∧ Books D worker (held.set d i (some q)) maps marked w
  | .ok none, _ => False
  | .error _, w => Books D worker held maps marked w

theorem try_create_books (hslots : D.num_slots < 10 ^ 10) (hi : i < D.num_slots)
    (hnone : held d i = none) {n : String} (hn : d.overflow_name_gen D.config D.target i 0 = some n)
    (size : ℕ) :
    Triple (machine D.target) (Books D worker held maps marked)
      (ShmRegion.try_create_exclusive n size).run
      (Attempted D worker held maps marked d i size) := by
  refine Triple.act (R := Created_for D worker held maps marked d i size) ?_ ?_
  · intro t c w x w' h hx
    exact h.created_region hslots hi hnone hn hx
  · intro x
    match x with
    | .region q => exact Triple.done fun w h => h
    | .mapping_id_exists => exact Triple.done fun w h => h
    | .error e => exact Triple.done fun w h => h

theorem create_exclusive_books (hslots : D.num_slots < 10 ^ 10) (hi : i < D.num_slots)
    (hnone : held d i = none) {n : String} (hn : d.overflow_name_gen D.config D.target i 0 = some n)
    (size : ℕ) :
    Triple (machine D.target) (Books D worker held maps marked)
      (ShmRegion.create_exclusive D.target n size).run
      (Attempted D worker held maps marked d i size) := by
  refine Triple.bind_except (R := fun o => Attempted D worker held maps marked d i size (.ok o)) ?_
    fun o => ?_
  · refine (try_create_books hslots hi hnone hn size).mono (fun w h => h) fun result w h => ?_
    cases result with
    | ok o => exact h
    | error e => exact h
  · cases o with
    | some q => exact Triple.done fun w h => h
    | none => exact fun _ _ _ _ h => h.elim

/-- **`create_overflow_fresh` finds the name of generation 0 free.** -/
theorem create_overflow_books (hslots : D.num_slots < 10 ^ 10) (hi : i < D.num_slots)
    (hnone : held d i = none) (body : List UInt8) :
    Triple (machine D.target) (Books D worker held maps marked)
      (ShmRegion.create_overflow_fresh D.target
      (fun g => d.overflow_name_gen D.config D.target i g) body).run
      fun result w => match result with
        | .ok (q, marker) => marker = 1 ∧ Books D worker (held.set d i (some q)) maps marked w
        | .error _ => Books D worker held maps marked w := by
  show Triple _ _ (ShmRegion.create_overflow_from D.target _ body (254 + 1) 0 "").run _
  unfold ShmRegion.create_overflow_from
  cases hn : d.overflow_name_gen D.config D.target i 0 with
  | none =>
      exact Triple.act (R := fun _ _ => True) (fun _ _ _ _ _ _ _ => trivial) fun x => Empty.elim x
  | some n =>
      refine Triple.bind_except (R := fun o =>
        Attempted D worker held maps marked d i (ShmRegion.overflow_size_for body.length) (.ok o))
          ?_ fun o => ?_
      · refine (create_exclusive_books hslots hi hnone hn _).mono (fun w h => h) fun result w h =>
          ?_
        cases result with
        | ok o => exact h
        | error e => exact h
      · cases o with
        | none => exact fun _ _ _ _ h => h.elim
        | some q =>
            refine Triple.of_pure fun hlen => ?_
            have hfits : ¬q.len < body.length := by
              have hle := Tenancy.le_overflow_size_for body.length
              omega
            refine Triple.bind_except (R := fun q' w => q' = q ∧
              Books D worker (held.set d i (some q)) maps marked w)
              ?_ fun q' => ?_
            · unfold ShmRegion.fill_overflow
              rw [if_neg hfits]
              refine Triple.act (R := fun _ => Books D worker (held.set d i (some q)) maps marked)
                ?_ fun _ => ?_
              · intro t c w x w' h hx
                exact h.spare (a := .shm_write q body) ⟨trivial, fun _ _ _ => Set.notMem_empty _⟩ hx
              · exact Triple.done fun w h => ⟨rfl, h⟩
            · refine Triple.of_pure fun hq => ?_
              subst hq
              exact Triple.done fun w h => ⟨rfl, h⟩

end Books

/-! ### Placing a payload -/

section Writers

variable {D : Deployment} {worker : ℕ} {held maps : Holdings}
    {marked : Set (Direction × ℕ)} {w w' : World}
  {d : Direction} {i : ℕ} {α β : Type}

/-- The offsets in a slot record that no marker has. -/
theorem record_unmarked (i : ℕ) {k n : ℕ} (h : ∀ e : Direction, e.fields + 16 < k ∨
    k + n ≤ e.fields + 16)
    (hk : k + n ≤ SLOT_META_SIZE) (e : Direction) (j : ℕ) :
    marker_address e j ∉ span (slot_address i + k) n := by
  intro hx
  rw [mem_span] at hx
  have hfields : e.fields + 16 < SLOT_META_SIZE := by cases e <;> decide
  have hapart := h e
  unfold marker_address slot_address at hx
  simp only [SHM_HEADER_SIZE, SLOT_META_SIZE] at hx hk hfields
  omega

theorem heap_unmarked {region : ShmRegion} (hregion : region.TableBelowHeap) {e : Direction} {j : ℕ}
    (hj : j < region.num_slots) : marker_address e j ∉ heap region := by
  intro hx
  have haddress := slot_address_heap hregion hj
  rw [heap, mem_span] at hx
  have hfields : e.fields + 16 < SLOT_META_SIZE := by cases e <;> decide
  unfold marker_address at hx
  simp only [SLOT_META_SIZE] at hfields haddress
  omega

/-- A write of a field of the slot record that is no marker. -/
theorem field_write_spares {k : ℕ} {bytes : List UInt8}
    (h : ∀ e : Direction, e.fields + 16 < k ∨ k + bytes.length ≤ e.fields + 16)
    (hk : k + bytes.length ≤ SLOT_META_SIZE) :
    (liftM (write_bytes (slot_address i + k) bytes) : Fallible Unit).run.Confined D.Spares :=
  confined_lift ⟨⟨trivial, fun e j _ => record_unmarked i h hk e j⟩, fun _ => trivial⟩

/-- The first four pointer fields of a direction. -/
theorem pointer_write_spares {k : ℕ} {bytes : List UInt8} (hk : k + bytes.length ≤ 16) :
    (liftM (write_bytes (slot_address i + (d.fields + k)) bytes) : Fallible Unit).run.Confined
      D.Spares := by
  refine field_write_spares (fun e => ?_) ?_
  · cases d <;> cases e <;> simp only [Direction.fields] <;> omega
  · cases d <;> simp only [Direction.fields, SLOT_META_SIZE] <;> omega

theorem heap_write_spares {region : ShmRegion} (hregion : region.TableBelowHeap)
    (hslots : region.num_slots = D.num_slots) (offset : ℕ) (data : List UInt8) :
    (region.heap_write_checked offset data).run.Confined D.Spares := by
  unfold ShmRegion.heap_write_checked
  split
  next hfits =>
      refine confined_lift ⟨⟨trivial, fun e j hj hx => ?_⟩, fun _ => trivial⟩
      have hsub : span (region.heap_offset + offset) data.length ⊆ heap region :=
        span_subset (Nat.le_add_right _ _) (by omega)
      exact heap_unmarked hregion (hslots ▸ hj) (hsub hx)
  next => trivial

theorem ensure_spares (b : Prop) [Decidable b] (e : SlotBusError) :
    (ensure b e).run.Confined D.Spares := by
  unfold ensure
  split <;> trivial

/-- What comes before the marker keeps the books. -/
theorem Books.keep_then {p : Fallible α} {f : α → Fallible β}
    {Q : Except SlotBusError β → World → Prop} (hp : p.run.Confined D.Spares)
    (herr : ∀ e w, Books D worker held maps marked w → Q (.error e) w)
    (hf : ∀ v, Triple (machine D.target) (Books D worker held maps marked) (f v).run Q) :
    Triple (machine D.target) (Books D worker held maps marked) (p >>= f).run Q := by
  refine Triple.bind_except (R := fun _ => Books D worker held maps marked) ?_ hf
  refine (Books.keep hp).mono (fun w h => h) ?_
  intro result w h
  cases result with
  | ok v => exact h
  | error e => exact herr e w h

/-- The markers that are there after `m` has been written to one of them that was not. -/
def after_marker (marked : Set (Direction × ℕ)) (d : Direction) (i : ℕ) (m : UInt8) :
    Set (Direction × ℕ) :=
  {x | x ∈ marked ∨ m = 1 ∧ x = (d, i)}

theorem after_marker_inline : after_marker marked d i OVERFLOW_INLINE = marked := by
  ext x
  exact or_iff_left fun h => absurd h.1 (by decide)

/-- A marker is written that was not there. -/
theorem Books.write_marker {t : Thread} {c : Choice} {r : Unit} {m : UInt8}
    (h : Books D worker held maps marked w) (hi : i < D.num_slots) (hmarked : (d, i) ∉ marked)
    (hm : m = OVERFLOW_INLINE ∨ m = 1)
    (hx : (machine D.target).exec t (.write (marker_address d i) [m]) c w = some (r, w')) :
    Books D worker held maps (after_marker marked d i m) w' := by
  have hzero : D.AtGenerationZero (.write (marker_address d i) [m]) := by
    intro _ _ _ _
    exact hm.imp (congrArg fun m => [m]) (congrArg fun m => [m])
  refine h.calm (a := .write _ [m]) trivial hzero hx fun e j hej => ?_
  have hmem : w'.mem = write w.mem (marker_address d i) [m] := by
    rw [exec_write hx]
  cases hej with
  | inl hold =>
      obtain ⟨hj, hone⟩ := h.marked e j hold
      refine ⟨hj, ?_⟩
      rw [hmem, write_outside]
      · exact hone
      · intro hspan
        rw [List.length_singleton, mem_span] at hspan
        obtain ⟨rfl, rfl⟩ :=
          marker_address_injective (show marker_address e j = marker_address d i by omega)
        exact hmarked hold
  | inr hnew =>
      obtain ⟨rfl, heq⟩ := hnew
      obtain ⟨rfl, rfl⟩ := Prod.mk.inj heq
      refine ⟨hi, ?_⟩
      rw [hmem]
      exact List.head_eq_of_cons_eq (read_write_same w.mem (marker_address e j) [1])

/-- **The pointer fields of a body**, and the marker as the last of them. -/
theorem write_body_fields_books (hi : i < D.num_slots) (hmarked : (d, i) ∉ marked) {m : UInt8}
    (hm : m = OVERFLOW_INLINE ∨ m = 1) (offset len : ℕ)
    {Q : Except SlotBusError α → World → Prop} (v : α)
    (hQ : ∀ w, Books D worker held maps (after_marker marked d i m) w → Q (.ok v) w) :
    Triple (machine D.target) (Books D worker held maps marked)
      (write_body_fields d i offset len m >>= fun _ => pure v).run Q := by
  have hfields :
      Triple (machine D.target) (Books D worker held maps marked)
      (write_body_fields d i offset len m).run
      fun result w => match result with
        | .ok _ => Books D worker held maps (after_marker marked d i m) w
        | .error _ => False := by
    have hspare :
        ∀ {k v : ℕ}, k ≤ 12 → D.Spares (.write (slot_address i + (d.fields + k)) (encodeLE 4 v)) :=
      fun hk => (pointer_write_spares (D := D) (d := d) (i := i) (by rw [encodeLE_length]; omega)).1
    refine Triple.act (R := fun _ => Books D worker held maps marked) ?_ fun _ => ?_
    · intro t c w r w' h hx
      exact h.spare (hspare (by omega)) hx
    refine Triple.act (R := fun _ => Books D worker held maps marked) ?_ fun _ => ?_
    · intro t c w r w' h hx
      exact h.spare (hspare (by omega)) hx
    refine Triple.act (R := fun _ => Books D worker held maps (after_marker marked d i m)) ?_
      fun _ => .done fun w h => h
    intro t c w r w' h hx
    exact h.write_marker hi hmarked hm hx
  refine Triple.bind_except (R := fun _ => Books D worker held maps (after_marker marked d i m)) ?_
    fun _ => .done hQ
  refine hfields.mono (fun w h => h) ?_
  intro result w h
  cases result with
  | ok _ => exact h
  | error e => exact h.elim

/-- What placing a payload leaves, for a slot that has no region. -/
def Placed (D : Deployment) (worker : ℕ) (held maps : Holdings) (marked : Set (Direction × ℕ))
    (d : Direction) (i : ℕ) :
    Except SlotBusError (Option OverflowRegion) → World → Prop
  | .ok (some q), w => Books D worker (held.set d i (some q)) maps (after_marker marked d i 1) w
  | _, w => Books D worker held maps marked w

theorem write_body_books {region : ShmRegion} (hregion : region.TableBelowHeap)
    (hslots : region.num_slots = D.num_slots) (hbound : D.num_slots < 10 ^ 10)
    (hi : i < D.num_slots) (hnone : held d i = none) (hmarked : (d, i) ∉ marked) (meta_len : ℕ)
    (body : List UInt8) :
    Triple (machine D.target) (Books D worker held maps marked)
      (write_body d D.target region i meta_len body D.config).run
      (Placed D worker held maps marked d i) := by
  have hinline : ∀ offset len, Triple (machine D.target) (Books D worker held maps marked)
      (write_body_fields d i offset len OVERFLOW_INLINE >>= fun _ => pure none).run
      (Placed D worker held maps marked d i) := by
    intro offset len
    refine write_body_fields_books hi hmarked (.inl rfl) offset len none fun w h => ?_
    rw [after_marker_inline] at h
    exact h
  unfold write_body
  split
  · exact hinline 0 0
  · simp only []
    split
    next offset _ =>
        exact Books.keep_then (heap_write_spares hregion hslots offset body) (fun e w h => h)
          fun _ => hinline offset body.length
    next =>
        refine Triple.bind_except (R := fun x w => x.2 = 1 ∧
          Books D worker (held.set d i (some x.1)) maps marked w) ?_ ?_
        · refine (create_overflow_books hbound hi hnone body).mono (fun w h => h) ?_
          intro result w h
          cases result with
          | ok x => exact h
          | error e => exact h
        · intro ⟨q, marker⟩
          refine Triple.of_pure fun hmarker => ?_
          obtain rfl : marker = 1 := hmarker
          exact write_body_fields_books hi hmarked (.inr rfl) 0 body.length (some q) fun w h => h

/-- **A payload for a slot that has no region** gets one under its name of generation 0, or none. -/
theorem write_payload_books {region : ShmRegion} (hregion : region.TableBelowHeap)
    (hslots : region.num_slots = D.num_slots) (hbound : D.num_slots < 10 ^ 10)
    (hi : i < D.num_slots) (hnone : held d i = none) (hmarked : (d, i) ∉ marked)
    (meta_bytes body : List UInt8) :
    Triple (machine D.target) (Books D worker held maps marked)
      (write_payload d D.target region i meta_bytes body D.config).run
      (Placed D worker held maps marked d i) := by
  unfold write_payload
  refine Books.keep_then (ensure_spares _ _) (fun e w h => h) fun _ => ?_
  refine Books.keep_then (heap_write_spares hregion hslots _ _) (fun e w h => h) fun _ => ?_
  refine Books.keep_then (pointer_write_spares (k := 0) ?_) (fun e w h => h) fun _ => ?_
  · rw [encodeLE_length]
    omega
  refine Books.keep_then (pointer_write_spares ?_) (fun e w h => h) fun _ => ?_
  · rw [encodeLE_length]
    omega
  exact write_body_books hregion hslots hbound hi hnone hmarked meta_bytes.length body

/-- Publishing a slot changes nothing here. -/
theorem publish_books {p : Fallible (Option OverflowRegion)} {v : ℕ}
    (hp : Triple (machine D.target) (Books D worker held maps marked) p.run
    (Placed D worker held maps marked d i)) :
    Triple (machine D.target) (Books D worker held maps marked)
      (p >>= fun overflow => (liftM (store i v) : Fallible Unit) >>= fun _ => pure overflow).run
      (Placed D worker held maps marked d i) := by
  have hspare : D.Spares (.store i v) := ⟨trivial, fun _ _ _ => Set.notMem_empty _⟩
  refine Triple.bind_except (R := fun o => Placed D worker held maps marked d i (.ok o)) ?_ fun o =>
    ?_
  · refine hp.mono (fun w h => h) ?_
    intro result w h
    cases result with
    | ok o => exact h
    | error e => exact h
  · refine Triple.act (R := fun _ => Placed D worker held maps marked d i (.ok o)) ?_ fun _ =>
      .done fun w h => h
    intro t c w r w' h hx
    cases o with
    | none => exact Books.spare h hspare hx
    | some q => exact Books.spare h hspare hx

theorem write_request_books (hD : D.Sound) (hbound : D.num_slots < 10 ^ 10) (hi : i < D.num_slots)
    (hnone : held .request i = none) (hmarked : (.request, i) ∉ marked)
    (req_id : String) (method : UInt8) (meta_bytes body : List UInt8) :
    Triple (machine D.target) (Books D worker held maps marked)
      (write_request D.target D.hub_region i req_id method meta_bytes body D.config)
      (Placed D worker held maps marked .request i) := by
  have hheader : ∀ {k : ℕ} {bytes : List UInt8}, k + bytes.length ≤ 41 →
      (liftM (write_bytes (slot_address i + k) bytes) : Fallible Unit).run.Confined D.Spares := by
    intro k bytes hk
    refine field_write_spares (fun e => .inr ?_) ?_
    · cases e <;> simp only [Direction.fields] <;> omega
    · rw [SLOT_META_SIZE]
      omega
  have hinner : Triple (machine D.target) (Books D worker held maps marked)
      (write_request_inner D.target D.hub_region i req_id method meta_bytes body D.config).run
      (Placed D worker held maps marked .request i) := by
    have htake := List.length_take_le 36 req_id.toUTF8.toList
    unfold write_request_inner
    refine Books.keep_then (ensure_spares _ _) (fun e w h => h) fun _ => ?_
    refine Books.keep_then (hheader (by simp)) (fun e w h => h) fun _ => ?_
    refine Books.keep_then (hheader (by omega)) (fun e w h => h) fun _ => ?_
    refine Books.keep_then (hheader (by simp)) (fun e w h => h) fun _ => ?_
    exact publish_books
      (write_payload_books hD.hub_table rfl hbound hi hnone hmarked meta_bytes body)
  refine Triple.bind hinner fun result => ?_
  cases result with
  | ok o => exact .done fun w h => h
  | error e =>
      refine Triple.act (R := fun _ => Books D worker held maps marked) ?_ fun _ => .done fun w h =>
        h
      intro t c w r w' h hx
      exact Books.spare (a := .store i SLOT_FREE) h ⟨trivial, fun _ _ _ => Set.notMem_empty _⟩ hx

theorem write_response_books (hD : D.Sound) (hbound : D.num_slots < 10 ^ 10) (hi : i < D.num_slots)
    (hnone : held .response i = none) (hmarked : (.response, i) ∉ marked) (status : UInt16)
    (meta_bytes body : List UInt8) :
    Triple (machine D.target) (Books D worker held maps marked)
      (write_response D.target D.worker_region i status meta_bytes body D.config).run
      (Placed D worker held maps marked .response i) := by
  unfold write_response
  refine Books.keep_then (ensure_spares _ _) (fun e w h => h) fun _ => ?_
  refine Books.keep_then (field_write_spares (fun e => ?_) ?_) (fun e w h => h) fun _ => ?_
  · rw [encodeLE_length]
    cases e <;> simp only [Direction.fields] <;> omega
  · rw [encodeLE_length, SLOT_META_SIZE]
    omega
  exact publish_books
    (write_payload_books hD.worker_table hD.num_slots_eq hbound hi hnone hmarked meta_bytes body)

end Writers

end SlotBus
