import SlotBus.Custody
import SlotBus.Registration

/-!
# Overflow regions and their readers

A payload that does not fit into its arena lies in a named region, which exists as long as its
creator holds the handle.  The overflow maps hold the handles by slot, and their entries are
replaced and removed outside the time in which the slot is owned.

* `Outlives` — every region whose payload has not been read is held, and can be opened;
* `InTime` — the order of the updates of the maps on which this depends;
* `request_regions_outlive_readers`, `response_regions_outlive_readers` — the results for all runs.
-/

namespace SlotBus

open ByteMemory AtomicProgram

/-! ### Payloads that have not been read -/

/-- The slot that a reader has looked at last. -/
def visited : List Entry → Option ℕ
  | [] => none
  | ⟨_, .load i, _⟩ :: _ => some i
  | ⟨_, .compare_exchange i _ _, _⟩ :: _ => some i
  | _ :: log => visited log

/-- Since its last compare-exchange on slot `i`, the reader has copied the bytes of an overflow
region of the slot. -/
def body_read (i : ℕ) : List Entry → Bool
  | [] => false
  | ⟨_, .compare_exchange j _ _, _⟩ :: log => decide (j ≠ i) && body_read i log
  | ⟨_, .shm_read _ _, _⟩ :: log => decide (visited log = some i) || body_read i log
  | _ :: log => body_read i log

/-- The call whose payload is in this half of slot `i` and has not been read: the slot is READY, or
CLAIMED by a loop that has not read the body; or it is DONE, and the watcher has not read the
body. -/
def unread (w : World) : Direction → ℕ → Option Thread
  | .request, i =>
      match owner w.log i with
      | .ready k => some (.dispatch k)
      | .reading l k =>
          if body_read i (history (.receive l) w.log) then none else some (.dispatch k)
      | _ => none
  | .response, i =>
      match owner w.log i with
      | .done _ _ c => if body_read i (history .watcher w.log) then none else some (.respond c)
      | _ => none

/-- The generation that the marker of a half stands for, if it is not zero. -/
def marked (mem : Memory) (d : Direction) (i : ℕ) : Option ℕ :=
  overflow_generation (UInt8.ofNat (load mem (slot_address i + (d.fields + 16)) 1))

/-- The map in which a call keeps its handle. -/
def Thread.Keeps : Thread → Side → Prop
  | .dispatch _, .hub | .respond _, .worker _ => True
  | _, _ => False

/-- The handle of the region is in a local variable of the call, which is about to put it into the
map, or it is in the entry of the slot. -/
inductive Held (σ : Configuration bus Thread World) (t : Thread) (i : ℕ) (r : OverflowRegion) :
    Prop where
  | local_variable {side : Side} {rest : Unit → Program bus Unit} (hside : t.Keeps side)
      (h : σ.program t = .act (.overflow_insert side i r) rest)
  | entry {side : Side} (hside : t.Keeps side) (h : σ.state.overflow_regions side i = some r)

/-- **Overflow regions outlive their readers.**  As long as a payload with an overflow region has
not been read, the region that its call has created is held by the call's side, and its name stands
for it. -/
def Outlives (D : Deployment) (d : Direction) (σ : Configuration bus Thread World) : Prop :=
  ∀ i t g, unread σ.state d i = some t → marked σ.state.mem d i = some g →
    ∃ r, (D.half (D.writer d) d i).name g = some r.name ∧ Created_by t r σ.state.log ∧
      σ.state.names r.name = some r.segment ∧ Held σ t i r

/-! ### The order of the updates -/

/-- The entry of an overflow map that an action removes or replaces. -/
def Action.touched : Action → Option (Side × ℕ)
  | .overflow_remove side i => some (side, i)
  | .overflow_insert side i _ => some (side, i)
  | _ => none

/-- The entry of an overflow map into which an action puts a handle. -/
def Action.inserted : Action → Option (Side × ℕ)
  | .overflow_insert side i _ => some (side, i)
  | _ => none

/-- The call has put its handle into the entry. -/
def Handed_over (w : World) (t : Thread) (side : Side) (i : ℕ) : Prop :=
  ∃ e ∈ w.log, e.thread = t ∧ e.action.inserted = some (side, i)

instance (w : World) (t : Thread) (side : Side) (i : ℕ) : Decidable (Handed_over w t side i) :=
  inferInstanceAs (Decidable (∃ e ∈ w.log, e.thread = t ∧ e.action.inserted = some (side, i)))

/-- The thread does not remove or replace the entry of a slot after another call, whose payload in
the slot has an overflow region and has not been read, has put its handle there. -/
def InTime (d : Direction) (t : Thread) (a : Action) (w : World) : Prop :=
  ∀ x ∈ a.touched, ∀ u ∈ unread w d x.2, marked w.mem d x.2 ≠ none → u ≠ t →
    ¬ Handed_over w u x.1 x.2

instance (d : Direction) (t : Thread) (a : Action) (w : World) : Decidable (InTime d t a w) :=
  inferInstanceAs (Decidable (∀ x ∈ a.touched, ∀ u ∈ unread w d x.2,
    marked w.mem d x.2 ≠ none → u ≠ t → ¬ Handed_over w u x.1 x.2))

/-- The runs in which the maps are updated in time. -/
def prompt (d : Direction) : Discipline bus Thread World Launch where
  action := InTime d
  launch := Answers_once

instance (d : Direction) (t : Thread) (a : Action) (w : World) :
    Decidable ((prompt d).action t a w) :=
  inferInstanceAs (Decidable (InTime d t a w))

instance (d : Direction) (e : Launch) (w : World) : Decidable ((prompt d).launch e w) :=
  inferInstanceAs (Decidable (Answers_once e w))

/-! ### Published slots -/

/-- The calls whose payloads are in the slots have published them. -/
structure Ledger.Published (L : Ledger) : Prop where
  request : ∀ i k, (L.owner i).call = some k → L.owner i ≠ .writing k →
    (L.phase (.dispatch k)).Past i
  response : ∀ i n k c, L.owner i = .done n k c → (L.phase (.respond c)).Past i

section Published

variable {L : Ledger} {t : Thread} {i : ℕ} {o : Owner} {p : Phase}

theorem Phase.Past.slot_eq (h : p.Past i) : p.slot = some i := by
  rcases h with rfl | rfl | rfl <;> rfl

theorem Phase.Past.not_waiting (h : p.Past i) : ¬ p.Waiting := by
  rcases h with rfl | rfl | rfl <;> simp [Phase.Waiting]

theorem Phase.Follows.past {q : Phase} (h : p.Follows q) (hp : p.Past i) : q.Past i := by
  rcases hp with rfl | rfl | rfl <;> cases h
  · exact .inr (.inl rfl)
  · exact .inr (.inr rfl)
  · exact .inr (.inr rfl)

theorem Ledger.Turn.published (hL : L.Invariant) (hP : L.Published) (h : L.Turn t i o p) :
    (L.pass t i o p).Published := by
  have hr := hP.request
  have hd := hP.response
  have hc := hL.claimed
  have hw := hL.writing
  constructor
  · intro j k hj hne
    cases h <;> simp only [Ledger.pass_owner, Ledger.pass_phase] at hj hne ⊢ <;>
      grind [Owner.call, Phase.slot, Phase.Past]
  · intro j n k c hj
    cases h <;> simp only [Ledger.pass_owner, Ledger.pass_phase] at hj ⊢ <;>
      grind [Phase.Past, Ledger.Sole]

/-- A thread that goes on stays past its slot. -/
theorem Ledger.Published.follow (hP : L.Published) (h : (L.phase t).Follows p) :
    Ledger.Published { L with phase := Function.update L.phase t p } := by
  have hpast : ∀ u j, (L.phase u).Past j → (Function.update L.phase t p u).Past j := by
    intro u j hu
    by_cases hut : u = t
    · subst hut
      rw [Function.update_self]
      exact h.past hu
    · rwa [Function.update_of_ne hut]
  exact ⟨fun j k hj hne => hpast _ j (hP.request j k hj hne), fun j n k c hj =>
    hpast _ j (hP.response j n k c hj)⟩

/-- A handler takes a slot over from a receive loop. -/
theorem Ledger.Published.invoke (hP : L.Published) {l n k : ℕ} (h : L.owner i = .reading l k)
    (f : ℕ → Option ℕ) :
    Ledger.Published { L.pass (.receive l) i (.handling n k) (.released i) with slot_of := f } := by
  constructor
  · intro j m hj hne
    have hj' : (if j = i then Owner.handling n k else L.owner j).call = some m := by simpa using hj
    have hne' : (if j = i then Owner.handling n k else L.owner j) ≠ .writing m := by simpa using hne
    show (Function.update L.phase (.receive l) (.released i) (.dispatch m)).Past j
    rw [Function.update_of_ne (show Thread.dispatch m ≠ .receive l from nofun)]
    by_cases hij : j = i
    · subst hij
      rw [if_pos rfl] at hj'
      exact hP.request j m (h ▸ hj') (by rw [h]; nofun)
    · rw [if_neg hij] at hj' hne'
      exact hP.request j m hj' hne'
  · intro j m q c hj
    have hj' : (if j = i then Owner.handling n k else L.owner j) = .done m q c := by simpa using hj
    show (Function.update L.phase (.receive l) (.released i) (.respond c)).Past j
    rw [Function.update_of_ne (show Thread.respond c ≠ .receive l from nofun)]
    by_cases hij : j = i
    · rw [if_pos hij] at hj'
      cases hj'
    · rw [if_neg hij] at hj'
      exact hP.response j m q c hj'

theorem Deployment.Move.published {D : Deployment} {a : Action} {w w' : World} (hI : D.Invariant w)
    (hP : w.ledger.Published) (hm : D.Move t a w w') : w'.ledger.Published := by
  cases hm with
  | still hledger _ => exact hledger ▸ hP
  | follow h hledger _ => exact hledger ▸ hP.follow h
  | turn _ _ h hledger _ _ _ => exact hledger ▸ h.published hI.ledger hP
  | invoke ht h _ hledger _ _ _ =>
      subst ht
      exact hledger ▸ hP.invoke h _

theorem Deployment.Reaches.published {D : Deployment}
    {discipline : Discipline bus Thread World Launch} {σ : Configuration bus Thread World}
    (h : D.Reaches discipline σ) (hadmits : ∀ e w, discipline.launch e w → Deployment.Admits w e) :
    σ.state.ledger.Published := by
  refine h.induct (P := fun τ => τ.state.ledger.Published)
    (fun _ _ _ _ _ => ⟨fun i k hk => (by cases hk), fun i n k c hk => (by cases hk)⟩)
    (fun τ t a rest c r w' hτ ih hp _ hx => ?_) fun τ e t p w' _ ih _ _ hx => ?_
  · have hσ := hτ.wellBehaved hadmits
    exact ((hσ.legal hp).2.move h.sound hσ.invariant hx).published hσ.invariant ih
  · obtain ⟨calls, replies, rfl⟩ := Deployment.launch_eq hx
    exact ⟨ih.request, ih.response⟩

end Published

/-! ### The regions that are held -/

/-- **Every handle is in its place**: with the call that has created the region, and after that in
one entry of the maps.  The name of a region whose handle is held stands for it. -/
structure Custodies (w : World) : Prop where
  genuine : ∀ t r, Created_by t r w.log → (w.segments r.segment).orphan = false
  latest : ∀ t r, latest_region (history t w.log) = some r → Created_by t r w.log
  local_live : ∀ t r, t.Writes → (custody_of w.log t).local_variable = some r →
    w.names r.name = some r.segment
  entry : ∀ side i r, w.overflow_regions side i = some r →
    w.names r.name = some r.segment ∧ ∃ t, t.Writes ∧ custody_of w.log t = .kept side i r
  side : ∀ t side i r, t.Writes → custody_of w.log t = .kept side i r → t.Keeps side
  handed : ∀ t side i, t.Writes → Handed_over w t side i → ∃ r, custody_of w.log t = .kept side i r

/-- A handle is in an entry because the call has put it there. -/
theorem handed_of_kept {w : World} {t : Thread} {side : Side} {i : ℕ} {r : OverflowRegion}
    (h : custody_of w.log t = .kept side i r) : Handed_over w t side i := by
  have hlog : ∀ log : List Entry, after custody (.writing none) log = .kept side i r →
      ∃ e ∈ log, e.action.inserted = some (side, i) := by
    intro log
    induction log with
    | nil => exact nofun
    | cons e log ih =>
        intro h
        rcases custody_next_eq_kept h with hold | hinsert
        · obtain ⟨e', he', hinserted⟩ := ih hold
          exact ⟨e', List.mem_cons_of_mem _ he', hinserted⟩
        · exact ⟨e, List.mem_cons_self, by rw [hinsert]; rfl⟩
  obtain ⟨e, he, hinserted⟩ := hlog _ h
  obtain ⟨he, ht⟩ := List.mem_filter.mp he
  exact ⟨e, he, of_decide_eq_true ht, hinserted⟩

section Steps

variable {D : Deployment} {t u : Thread} {a : Action} {x : Choice} {w w' : World}
    {v : Answer a} {r : OverflowRegion}
  {side : Side} {i : ℕ}

/-- What is known of a step of a run. -/
structure Careful (D : Deployment) (w : World) (t : Thread) (a : Action) : Prop where
  invariant : D.Invariant w
  legal : D.Legal w t a
  reflected : Reflected w.log
  allowed : t.Writes → custody.allowed (custody_of w.log t) a

theorem Custodies.created_of_local (hw : Custodies w) (href : Reflected w.log) (hu : u.Writes)
    (hr : (custody_of w.log u).local_variable = some r) : Created_by u r w.log :=
  hw.latest u r ((href u hu).latest_of_local hr)

theorem Custodies.created_of_kept (hw : Custodies w) (href : Reflected w.log) (hu : u.Writes)
    (hr : custody_of w.log u = .kept side i r) : Created_by u r w.log := by
  have h := href u hu
  rw [hr] at h
  exact hw.latest u r h.latest_of_kept.1

/-- **A region is released only through the entry that holds its handle.** -/
theorem Custodies.released (hw : Custodies w) (hc : Careful D w t a)
    (hx : (machine D.target).exec t a x w = some (v, w')) (hr : Created_by u r w.log)
    (hlive : w.names r.name = some r.segment) :
    w'.names r.name = some r.segment ∨
      ∃ side i, a.touched = some (side, i) ∧ custody_of w.log u = .kept side i r ∧ u.Writes := by
  have hheld : ∀ side i q, w.overflow_regions side i = some q → r.name = q.name →
      w.names r.name = some q.segment →
      custody_of w.log u = .kept side i r ∧ u.Writes := by
    intro side i q hmap hname hseg
    obtain ⟨-, t', ht', hkept⟩ := hw.entry side i q hmap
    have hsegment : r.segment = q.segment := Option.some.inj (hlive.symm.trans hseg)
    obtain ⟨rfl, rfl⟩ :=
      hc.invariant.consistent.unique u t' r q hr
      (hw.created_of_kept hc.reflected ht' hkept) hsegment
    exact ⟨hkept, ht'⟩
  rcases (exec_changes hx).names r.name with hsame | ⟨-, hreleases⟩ | ⟨size, -, hnone, -⟩
  · exact .inl (hsame.trans hlive)
  · cases hreleases with
    | @reclaim s hs horphan =>
        -- only the regions of killed processes are reclaimed
        obtain rfl := Option.some.inj (hlive.symm.trans hs)
        rw [hw.genuine u r hr] at horphan
        cases horphan
    | drop hn hs =>
        cases hc.legal with
        | bystander hb => exact hb.elim
        | own _ ho => exact ho.elim
    | @remove side i q hmap hn hs => exact .inr ⟨side, i, rfl, hheld side i q hmap hn hs⟩
    | @insert side i q new hmap hn hs => exact .inr ⟨side, i, rfl, hheld side i q hmap hn hs⟩
  · rw [hnone] at hlive
    cases hlive

theorem Custodies.genuine_step (hw : Custodies w) (hc : Careful D w t a)
    (hx : (machine D.target).exec t a x w = some (v, w')) (hr : Created_by u r w'.log) :
    (w'.segments r.segment).orphan = false := by
  have hch := exec_changes hx
  rw [Created_by, hch.log] at hr
  rcases List.mem_cons.mp hr with heq | hold
  · -- a region that has just been created
    obtain ⟨rfl, rfl, heq⟩ := Entry.mk.inj heq
    obtain rfl := eq_of_heq heq
    rcases exec_shm_create hx with ⟨text, hcreated⟩ | hcreated | ⟨hcreated, -, hsegment, -⟩
    · cases hcreated
    · cases hcreated
    · rw [Created.region.inj hcreated, hsegment]
  · rcases hch.segments r.segment with hsame | ⟨hnext, -⟩ | ⟨q, data, -, -, hfill⟩
    · rw [hsame]
      exact hw.genuine u r hold
    · have := hc.invariant.consistent.lt_next u r hold
      omega
    · rw [hfill]
      exact hw.genuine u r hold

theorem Custodies.latest_step (hw : Custodies w)
    (hx : (machine D.target).exec t a x w = some (v, w'))
    (hr : latest_region (history u w'.log) = some r) : Created_by u r w'.log := by
  have hlog := (exec_changes hx).log
  have hold : latest_region (history u w.log) = some r → Created_by u r w'.log := fun h => by
    rw [Created_by, hlog]
    exact List.mem_cons_of_mem _ (hw.latest u r h)
  by_cases hcreate : ∃ n size, a = .shm_create n size
  · obtain ⟨n, size, rfl⟩ := hcreate
    by_cases hut : t = u
    · subst hut
      have hcons := hr
      rw [hlog, history_cons_self] at hcons
      rcases exec_shm_create hx with ⟨text, rfl⟩ | rfl | ⟨rfl, -, -, hcreated, hlatest⟩
      · exact hold hcons
      · exact hold hcons
      · obtain rfl := Option.some.inj (hlatest.symm.trans hr)
        exact hcreated
    · rw [hlog, history_cons_of_ne hut] at hr
      exact hold hr
  · push Not at hcreate
    rw [hlog, latest_region_cons hcreate] at hr
    exact hold hr

/-- A region in a local variable has not been put into an entry. -/
theorem Custodies.local_kept (hr : (custody_of w.log u).local_variable = some r)
    (hkept : custody_of w.log u = .kept side i r) : False := by
  rw [hkept] at hr
  cases hr

theorem Custodies.local_live_step (hw : Custodies w) (hc : Careful D w t a)
    (hx : (machine D.target).exec t a x w = some (v, w')) (hu : u.Writes)
    (hr : (custody_of w'.log u).local_variable = some r) : w'.names r.name = some r.segment := by
  have hlog := (exec_changes hx).log
  have hold : (custody_of w.log u).local_variable = some r → w'.names r.name = some r.segment :=
    fun h => by
    rcases hw.released hc hx (hw.created_of_local hc.reflected hu h) (hw.local_live u r hu h) with
      hlive | ⟨side, i, -, hkept, -⟩
    · exact hlive
    · exact (Custodies.local_kept h hkept).elim
  rw [hlog] at hr
  by_cases hut : t = u
  · subst hut
    rw [custody_of_cons_self] at hr
    rcases custody_next_local (t := t) hr with h | ⟨n, size, heq⟩
    · exact hold h
    · obtain ⟨-, rfl, heq⟩ := Entry.mk.inj heq
      obtain rfl := eq_of_heq heq
      rcases exec_shm_create hx with ⟨text, hcreated⟩ | hcreated | ⟨hcreated, hname, -⟩
      · cases hcreated
      · cases hcreated
      · obtain rfl := Created.region.inj hcreated
        exact hname
  · rw [custody_of_cons_of_ne hut] at hr
    exact hold hr

/-- The thread that puts a handle into an entry holds it until then. -/
theorem Careful.insert (hc : Careful D w t (.overflow_insert side i r)) :
    t.Writes ∧ t.Keeps side ∧ custody_of w.log t = .owed i r := by
  have hthread : t.Writes ∧ t.Keeps side := by
    cases hc.legal with
    | bystander hb => exact hb.elim
    | own _ ho => exact ho.elim
    | keep_request _ _ => exact ⟨trivial, trivial⟩
    | keep_response _ _ => exact ⟨trivial, trivial⟩
  refine ⟨hthread.1, hthread.2, ?_⟩
  have hallowed := hc.allowed hthread.1
  cases hq : custody_of w.log t with
  | owed j q =>
      rw [hq] at hallowed
      obtain ⟨rfl, rfl⟩ := hallowed
      rfl
  | _ =>
      rw [hq] at hallowed
      exact hallowed.elim

/-- The custody of a thread after it has put its handle into an entry. -/
theorem custody_of_kept (hu : custody_of w.log u = .kept side i r)
    (hlog : w'.log = ⟨t, a, v⟩ :: w.log) :
    custody_of w'.log u = .kept side i r := by
  rw [hlog]
  by_cases hut : t = u
  · subst hut
    rw [custody_of_cons_self, hu, custody_next_kept]
  · rw [custody_of_cons_of_ne hut, hu]

/-- What an update of a map leaves in the entry. -/
theorem entry_of_insert {y : Unit}
    (hx : (machine D.target).exec t (.overflow_insert side i r) x w = some (y, w')) :
    w'.overflow_regions side i = some r := by
  obtain ⟨u, hu, rfl⟩ := exec_iff.mp hx
  obtain ⟨-, rfl⟩ := Prod.mk.inj (Option.some.inj hu)
  simp [World.set_overflow]

theorem entry_of_remove {y : Unit}
    (hx : (machine D.target).exec t (.overflow_remove side i) x w = some (y, w')) :
    w'.overflow_regions side i = none := by
  obtain ⟨u, hu, rfl⟩ := exec_iff.mp hx
  obtain ⟨-, rfl⟩ := Prod.mk.inj (Option.some.inj hu)
  simp [World.set_overflow]

theorem Custodies.entry_step (hw : Custodies w) (hc : Careful D w t a)
    (hx : (machine D.target).exec t a x w = some (v, w'))
    (hr : w'.overflow_regions side i = some r) :
    w'.names r.name = some r.segment ∧ ∃ u, u.Writes ∧ custody_of w'.log u = .kept side i r := by
  have hch := exec_changes hx
  by_cases htouched : a.touched = some (side, i)
  · cases a with
    | overflow_remove s j =>
        obtain ⟨rfl, rfl⟩ := Prod.mk.inj (Option.some.inj htouched)
        rw [entry_of_remove hx] at hr
        cases hr
    | overflow_insert s j q =>
        obtain ⟨rfl, rfl⟩ := Prod.mk.inj (Option.some.inj htouched)
        obtain rfl := Option.some.inj ((entry_of_insert hx).symm.trans hr)
        obtain ⟨hwrites, -, howed⟩ := hc.insert
        have hlocal : (custody_of w.log t).local_variable = some q := by rw [howed]; rfl
        refine ⟨?_, t, hwrites, ?_⟩
        · rcases hw.released hc hx (hw.created_of_local hc.reflected hwrites hlocal)
            (hw.local_live t q hwrites hlocal) with
            hlive | ⟨s', j', -, hkept, -⟩
          · exact hlive
          · exact (Custodies.local_kept hlocal hkept).elim
        · rw [hch.log, custody_of_cons_self, howed]
          rfl
    | _ => cases htouched
  · have hsame : w.overflow_regions side i = some r := by
      rcases hch.overflow_regions side i with heq | ⟨rfl, -⟩ | ⟨q, rfl, -⟩
      · exact heq ▸ hr
      · exact absurd rfl htouched
      · exact absurd rfl htouched
    obtain ⟨hlive, u, hu, hkept⟩ := hw.entry side i r hsame
    refine ⟨?_, u, hu, custody_of_kept hkept hch.log⟩
    rcases hw.released hc hx (hw.created_of_kept hc.reflected hu hkept) hlive with hlive' | ⟨s',
      j', htouched', hkept', -⟩
    · exact hlive'
    · -- the region is in one entry only
      obtain ⟨rfl, rfl, -⟩ := Custody.kept.inj (hkept.symm.trans hkept')
      exact absurd htouched' htouched

theorem Custodies.side_step (hw : Custodies w) (hc : Careful D w t a)
    (hx : (machine D.target).exec t a x w = some (v, w')) (hu : u.Writes)
    (hkept : custody_of w'.log u = .kept side i r) : u.Keeps side := by
  rw [(exec_changes hx).log] at hkept
  by_cases hut : t = u
  · subst hut
    rw [custody_of_cons_self] at hkept
    rcases custody_next_eq_kept hkept with hold | rfl
    · exact hw.side t side i r hu hold
    · exact hc.insert.2.1
  · rw [custody_of_cons_of_ne hut] at hkept
    exact hw.side u side i r hu hkept

theorem Custodies.handed_step (hw : Custodies w) (hc : Careful D w t a)
    (hx : (machine D.target).exec t a x w = some (v, w')) (hu : u.Writes)
    (h : Handed_over w' u side i) :
    ∃ r, custody_of w'.log u = .kept side i r := by
  have hlog := (exec_changes hx).log
  obtain ⟨e, he, ht, hinserted⟩ := h
  rw [hlog] at he
  rcases List.mem_cons.mp he with rfl | he
  · obtain rfl : t = u := ht
    cases a with
    | overflow_insert s j q =>
        obtain ⟨rfl, rfl⟩ := Prod.mk.inj (Option.some.inj hinserted)
        refine ⟨q, ?_⟩
        rw [hlog, custody_of_cons_self, hc.insert.2.2]
        rfl
    | _ => cases hinserted
  · obtain ⟨r, hr⟩ := hw.handed u side i hu ⟨e, he, ht, hinserted⟩
    exact ⟨r, custody_of_kept hr hlog⟩

end Steps

/-! ### Payloads are read once -/

section Reading

variable {D : Deployment} {t u : Thread} {a : Action} {x : Choice} {w w' : World} {v : Answer a}
    {d : Direction} {i : ℕ}

theorem unread_request : unread w .request i = some t ↔ ∃ k, t = .dispatch k ∧
    (owner w.log i = .ready k ∨
        ∃ l, owner w.log i = .reading l k ∧ body_read i (history (.receive l) w.log) = false) := by
  constructor
  · intro h
    simp only [unread] at h
    split at h
    · rename_i k ho
      exact ⟨k, (Option.some.inj h).symm, .inl ho⟩
    · rename_i l k ho
      split at h
      · cases h
      · rename_i hread
        exact ⟨k, (Option.some.inj h).symm, .inr ⟨l, ho, eq_false_of_ne_true hread⟩⟩
    · cases h
  · rintro ⟨k, rfl, ho | ⟨l, ho, hread⟩⟩
    · simp only [unread, ho]
    · simp [unread, ho, hread]

theorem unread_response : unread w .response i = some t ↔ ∃ n k c, t = .respond c ∧
    owner w.log i = .done n k c ∧
    body_read i (history .watcher w.log) = false := by
  constructor
  · intro h
    simp only [unread] at h
    split at h
    · rename_i n k c ho
      split at h
      · cases h
      · rename_i hread
        exact ⟨n, k, c, (Option.some.inj h).symm, ho, eq_false_of_ne_true hread⟩
    · cases h
  · rintro ⟨n, k, c, rfl, ho, hread⟩
    simp [unread, ho, hread]

theorem unread_writes (h : unread w d i = some t) : t.Writes := by
  cases d with
  | request =>
      obtain ⟨k, rfl, -⟩ := unread_request.mp h
      trivial
  | response =>
      obtain ⟨n, k, c, rfl, -⟩ := unread_response.mp h
      trivial

/-- The call of a payload has published the slot. -/
theorem unread_past (hP : w.ledger.Published) (h : unread w d i = some t) :
    (phase w.log t).Past i := by
  cases d with
  | request =>
      obtain ⟨k, rfl, ho | ⟨l, ho, -⟩⟩ := unread_request.mp h
      · exact hP.request i k (by show (owner w.log i).call = some k; rw [ho]; rfl)
          (by show owner w.log i ≠ _; rw [ho]; nofun)
      · exact hP.request i k (by show (owner w.log i).call = some k; rw [ho]; rfl)
          (by show owner w.log i ≠ _; rw [ho]; nofun)
  | response =>
      obtain ⟨n, k, c, rfl, ho, -⟩ := unread_response.mp h
      exact hP.response i n k c ho

/-- A body that has been read stays so until the next compare-exchange on the slot. -/
theorem body_read_cons {log : List Entry} (h : body_read i log = true)
    (ha : ∀ expected new, a ≠ .compare_exchange i expected new) :
    body_read i (⟨t, a, v⟩ :: log) = true := by
  cases a with
  | compare_exchange j expected new =>
      have hne : j ≠ i := fun hji => ha expected new (hji ▸ rfl)
      show (decide (j ≠ i) && body_read i log) = true
      rw [h, decide_eq_true hne]
      rfl
  | shm_read s n =>
      show (decide (visited log = some i) || body_read i log) = true
      rw [h, Bool.or_true]
  | _ => exact h

theorem body_read_step (hlog : w'.log = ⟨t, a, v⟩ :: w.log)
    (h : body_read i (history u w'.log) = false)
    (ha : t = u → ∀ expected new, a ≠ .compare_exchange i expected new) :
    body_read i (history u w.log) = false := by
  rw [hlog] at h
  by_cases htu : t = u
  · subst htu
    rw [history_cons_self] at h
    by_contra hread
    rw [body_read_cons (eq_true_of_ne_false hread) (ha rfl)] at h
    cases h
  · rwa [history_cons_of_ne htu] at h

/-- A slot has the owner that it had, or one to which it has just been passed on. -/
theorem owner_of_step (hm : D.Move t a w w') (i : ℕ) : owner w'.log i = owner w.log i ∨
    (∃ o p, w.ledger.Turn t i o p ∧ owner w'.log i = o) ∨ ∃ n k,
      owner w'.log i = .handling n k := by
  rcases hm.owner_cases with heq | ⟨j, o, p, -, -, hturn, heq, -⟩ | ⟨l, k, j, -, -, -, heq⟩
  · exact .inl (congrFun heq i)
  · by_cases hij : i = j
    · subst hij
      exact .inr (.inl ⟨o, p, hturn, by rw [heq, Function.update_self]⟩)
    · exact .inl (by rw [heq, Function.update_of_ne hij])
  · by_cases hij : i = j
    · subst hij
      exact .inr (.inr ⟨_, k, by rw [heq, Function.update_self]⟩)
    · exact .inl (by rw [heq, Function.update_of_ne hij])

/-- A loop does not exchange the status of the slot that it reads. -/
theorem reading_no_swap (hI : D.Invariant w) {l k : ℕ} (ho : owner w.log i = .reading l k)
    (hl : D.Legal w (.receive l) a) (expected new : ℕ) : a ≠ .compare_exchange i expected new := by
  rintro rfl
  cases hl with
  | bystander hb => exact hb.elim
  | own ht _ => cases ht
  | take _ hidle => exact hidle i ((hI.ledger.reading i l).mp (congrArg Owner.loop ho))

/-- When the watcher exchanges the status of a slot with a response, it takes the response. -/
theorem done_no_swap (hI : D.Invariant w) {n k c : ℕ} (ho : owner w.log i = .done n k c)
    (hl : D.Legal w .watcher a) (hx : (machine D.target).exec .watcher a x w = some (v, w'))
    (ho' : owner w'.log i = .done n k c) (expected new : ℕ) :
    a ≠ .compare_exchange i expected new := by
  rintro rfl
  cases hl with
  | bystander hb => exact hb.elim
  | own ht _ => cases ht
  | collect hi =>
      have hlog := (exec_changes hx).log
      rcases Deployment.mem_of_swap hx with ⟨rfl, -, -⟩ | ⟨-, hs, -⟩
      · rw [hlog] at ho'
        have hfree :
            owner (⟨.watcher, .compare_exchange i SLOT_DONE SLOT_FREE, true⟩ :: w.log) i = .free :=
          Function.update_self ..
        cases hfree.symm.trans ho'
      · exact hs (by rw [hI.status i hi, ho]; rfl)

/-- **A payload is read once.**  What has not been read after a step had not been read before, or
has just been published. -/
theorem unread_of_step (hI : D.Invariant w) (hl : D.Legal w t a) (hm : D.Move t a w w')
    (hx : (machine D.target).exec t a x w = some (v, w')) (h : unread w' d i = some u)
    (hpast : (phase w.log u).Past i) : unread w d i = some u := by
  have hlog := (exec_changes hx).log
  have hold : ∀ {o : Owner}, w.ledger.owner i = o → owner w.log i = o := fun h => h
  cases d with
  | request =>
      obtain ⟨k, rfl, ho⟩ := unread_request.mp h
      refine unread_request.mpr ⟨k, rfl, ?_⟩
      rcases owner_of_step hm i with heq | ⟨o, p, hturn, heq⟩ | ⟨n, m, heq⟩
      · rw [heq] at ho
        rcases ho with ho | ⟨l, ho, hread⟩
        · exact .inl ho
        · refine .inr ⟨l, ho, body_read_step hlog hread ?_⟩
          rintro rfl
          exact reading_no_swap hI ho hl
      · rw [heq] at ho
        cases hturn with
        | publish howner =>
            rcases ho with ho | ⟨l, ho, -⟩
            · obtain rfl := Owner.ready.inj ho
              have hholding : phase w.log _ = .holding i := (hI.ledger.writing i _).mp howner
              rw [hholding] at hpast
              rcases hpast with hp | hp | hp <;> cases hp
            · cases ho
        | take howner _ =>
            rcases ho with ho | ⟨l, ho, -⟩
            · cases ho
            · obtain ⟨-, rfl⟩ := Owner.reading.inj ho
              exact .inl howner
        | _ => rcases ho with ho | ⟨l, ho, -⟩ <;> cases ho
      · rw [heq] at ho
        rcases ho with ho | ⟨l, ho, -⟩ <;> cases ho
  | response =>
      obtain ⟨n, k, c, rfl, ho, hread⟩ := unread_response.mp h
      refine unread_response.mpr ⟨n, k, c, rfl, ?_⟩
      rcases owner_of_step hm i with heq | ⟨o, p, hturn, heq⟩ | ⟨n, m, heq⟩
      · have ho₀ := heq ▸ ho
        refine ⟨ho₀, body_read_step hlog hread ?_⟩
        rintro rfl
        exact done_no_swap hI ho₀ hl hx ho
      · obtain rfl := heq.symm.trans ho
        cases hturn with
        | answer howner hsole =>
            exact absurd (.inl hsole.idle) hpast.not_waiting
      · cases heq.symm.trans ho

/-- Nobody writes the record of a payload that has not been read. -/
theorem marked_of_step (hD : D.Sound) (hI : D.Invariant w) (hl : D.Legal w t a)
    (hx : (machine D.target).exec t a x w = some (v, w')) (h : unread w d i = some u) :
    marked w'.mem d i = marked w.mem d i := by
  have howner : owner w.log i ≠ .free ∧ ¬ Deployment.Tenant w t d i := by
    cases d with
    | request =>
        obtain ⟨k, -, ho | ⟨l, ho, -⟩⟩ := unread_request.mp h
        · refine ⟨by rw [ho]; nofun, ?_⟩
          rintro ⟨hw⟩
          cases ho.symm.trans hw
        · refine ⟨by rw [ho]; nofun, ?_⟩
          rintro ⟨hw⟩
          cases ho.symm.trans hw
    | response =>
        obtain ⟨n, k, c, -, ho, -⟩ := unread_response.mp h
        refine ⟨by rw [ho]; nofun, ?_⟩
        rintro (_ | ⟨hw, -⟩)
        cases ho.symm.trans hw
  have hi := hI.range i howner.1
  have hquiet := Deployment.quiet_of_legal hD hI hl hx (d := d) hi fun htenant =>
      absurd htenant howner.2
  have hread :
      read w.mem ((D.half (D.writer d) d i).field 16) 1 =
      read w'.mem ((D.half (D.writer d) d i).field 16) 1 :=
    hquiet.memory.read ((SlotHalf.field_subset (by omega)).trans SlotHalf.record_subset_area)
  show overflow_generation
      (UInt8.ofNat (decodeLE (read w'.mem ((D.half (D.writer d) d i).field 16) 1))) =
    overflow_generation (UInt8.ofNat (decodeLE (read w.mem ((D.half (D.writer d) d i).field 16) 1)))
  rw [hread]

/-- A marker that is not zero stands for the region of the payload. -/
theorem filled_marked {H : SlotHalf} {faithful tracked firm : Prop}
    {meta_bytes body : List UInt8} {P : Placement} {m : Memory} {g : ℕ}
    (h : H.Filled faithful tracked firm t meta_bytes body P m w)
    (hg : marked w.mem H.direction H.slot = some g) : ∃ r, H.Fresh tracked firm t r g body w := by
  have hmarker : read w.mem (H.field 16) 1 = [P.marker] := by
    rw [← h.bytes.read ((SlotHalf.field_subset (by omega)).trans SlotHalf.record_subset_area)]
    exact (SlotHalf.place_fields_loads P.offset body.length P.marker _).2.2
  have hgeneration : overflow_generation P.marker = some g := by
    rw [← Lease.decode_marker P.marker, ← hmarker]
    exact hg
  cases P with
  | empty => cases hgeneration
  | inline offset => cases hgeneration
  | overflow k r =>
      obtain ⟨k', heq, hfresh⟩ := h.fresh r rfl
      obtain ⟨rfl, -⟩ := Placement.overflow.inj heq
      have hk : overflow_generation (Placement.overflow k r).marker = some k :=
        Lease.overflow_generation_marker hfresh.generation_le
      obtain rfl := Option.some.inj (hk.symm.trans hgeneration)
      exact ⟨r, hfresh⟩

/-- The region of a payload that has not been read. -/
theorem unread_region (hI : D.Invariant w) (h : unread w d i = some t) {g : ℕ}
    (hg : marked w.mem d i = some g) :
    ∃ r, (D.half (D.writer d) d i).name g = some r.name ∧ Created_by t r w.log ∧
      latest_region (history t w.log) = some r := by
  cases d with
  | request =>
      have hin : ∃ k, t = .dispatch k ∧ D.RequestIn w i k := by
        obtain ⟨k, ht, ho | ⟨l, ho, -⟩⟩ := unread_request.mp h
        · exact ⟨k, ht, hI.request i k (by rw [ho]; rfl) (by rw [ho]; nofun)⟩
        · exact ⟨k, ht, hI.request i k (by rw [ho]; rfl) (by rw [ho]; nofun)⟩
      obtain ⟨k, rfl, call, meta_bytes, P, m, -, -, hfilled⟩ := hin
      obtain ⟨r, hfresh⟩ := filled_marked hfilled hg
      exact ⟨r, hfresh.name_eq, hfresh.created, hfresh.latest⟩
  | response =>
      obtain ⟨n, k, c, rfl, ho, -⟩ := unread_response.mp h
      obtain ⟨reply, meta_bytes, P, m, -, -, hfilled⟩ := hI.response i n k c ho
      obtain ⟨r, hfresh⟩ := filled_marked hfilled hg
      exact ⟨r, hfresh.name_eq, hfresh.created, hfresh.latest⟩

end Reading

section Runs

variable {D : Deployment} {discipline : Discipline bus Thread World Launch}
    {σ : Configuration bus Thread World}

/-- The next action of every thread in a run. -/
theorem Deployment.Reaches.careful (h : D.Reaches discipline σ)
    (hadmits : ∀ e w, discipline.launch e w → Deployment.Admits w e) {t : Thread} {a : Action}
    {rest : Answer a → Program bus Unit} (hp : σ.program t = .act a rest) :
    Careful D σ.state t a where
  invariant := (h.wellBehaved hadmits).invariant
  legal := ((h.wellBehaved hadmits).legal hp).2
  reflected := h.reflected
  allowed ht := by
    have hkeeps := h.custody_keeps ht
    rw [hp] at hkeeps
    exact hkeeps.1

/-- **In every run every handle is in its place.** -/
theorem Deployment.Reaches.custodies (h : D.Reaches discipline σ)
    (hadmits : ∀ e w, discipline.launch e w → Deployment.Admits w e) : Custodies σ.state := by
  refine h.induct (P := fun τ => Custodies τ.state) (fun _ _ _ _ _ => ?_)
    (fun τ t a rest c r w' hτ ih hp _ hx => ?_) fun τ e t p w' _ ih _ _ hx => ?_
  · exact ⟨fun t r hr => (by cases hr), fun t r hr => (by cases hr), fun t r _ hr => (by cases hr),
      fun side i r hr => (by cases hr), fun t side i r _ hr => (by cases hr),
      fun t side i _ ⟨e, he, _⟩ => (by cases he)⟩
  · have hc := hτ.careful hadmits hp
    exact ⟨fun u q => ih.genuine_step hc hx, fun u q => ih.latest_step hx, fun u q =>
      ih.local_live_step hc hx,
      fun side i q => ih.entry_step hc hx, fun u side i q => ih.side_step hc hx,
      fun u side i => ih.handed_step hc hx⟩
  · obtain ⟨calls, replies, rfl⟩ := Deployment.launch_eq hx
    exact ⟨ih.genuine, ih.latest, ih.local_live, ih.entry, ih.side, ih.handed⟩

/-- The handle of a payload that has not been read stays in its entry. -/
def Retained (d : Direction) (w : World) : Prop :=
  ∀ i t side r, unread w d i = some t → marked w.mem d i ≠ none →
    custody_of w.log t = .kept side i r →
    w.overflow_regions side i = some r

theorem retained_step {d : Direction} {t : Thread} {a : Action} {x : Choice}
    {w w' : World} {v : Answer a} (hD : D.Sound) (hc : Careful D w t a) (hm : D.Move t a w w')
    (hx : (machine D.target).exec t a x w = some (v, w')) (htime : InTime d t a w)
    (h : Retained d w) :
    Retained d w' := by
  intro i u side r hu hmarked hkept
  have hch := exec_changes hx
  have hwrites := unread_writes hu
  by_cases hnew : t = u ∧ a = .overflow_insert side i r
  · obtain ⟨rfl, rfl⟩ := hnew
    exact entry_of_insert hx
  · -- the handle was in the entry before
    have hold : custody_of w.log u = .kept side i r := by
      rw [hch.log] at hkept
      by_cases htu : t = u
      · subst htu
        rw [custody_of_cons_self] at hkept
        exact (custody_next_eq_kept hkept).resolve_right fun hinsert => hnew ⟨rfl, hinsert⟩
      · rwa [custody_of_cons_of_ne htu] at hkept
    have hpast : (phase w.log u).Past i := by
      have href := hc.reflected u hwrites
      rw [hold] at href
      exact href.latest_of_kept.2
    have hu₀ := unread_of_step hc.invariant hc.legal hm hx hu hpast
    have hmarked₀ : marked w.mem d i ≠ none := by
      rwa [marked_of_step hD hc.invariant hc.legal hx hu₀] at hmarked
    have hentry := h i u side r hu₀ hmarked₀ hold
    have hhanded : Handed_over w u side i := handed_of_kept hold
    rcases hch.overflow_regions side i with heq | ⟨rfl, -⟩ | ⟨q, rfl, -⟩
    · exact heq.trans hentry
    · by_cases htu : u = t
      · subst htu
        have hallowed := hc.allowed hwrites
        rw [hold] at hallowed
        exact hallowed.elim
      · exact absurd hhanded (htime (side, i) rfl u hu₀ hmarked₀ htu)
    · by_cases htu : u = t
      · subst htu
        have hallowed := hc.allowed hwrites
        rw [hold] at hallowed
        exact hallowed.elim
      · exact absurd hhanded (htime (side, i) rfl u hu₀ hmarked₀ htu)

theorem prompt_admits {d : Direction} (e : Launch) (w : World) (he : (prompt d).launch e w) :
    Deployment.Admits w e :=
  Answers_once.admits he

/-- While the maps are updated in time, the handles of what has not been read stay in their
entries. -/
theorem Deployment.Reaches.retained {d : Direction} (h : D.Reaches (prompt d) σ) :
    Retained d σ.state := by
  refine h.induct (P := fun τ => Retained d τ.state)
    (fun _ _ _ _ _ i t side r _ _ hr => (by cases hr)) (fun τ t a rest c r w' hτ ih hp ha hx => ?_)
    fun τ e t p w' _ ih _ _ hx => ?_
  · have hc := hτ.careful prompt_admits hp
    exact retained_step h.sound hc (hc.legal.move h.sound hc.invariant hx) hx ha ih
  · obtain ⟨calls, replies, rfl⟩ := Deployment.launch_eq hx
    intro i u side r hu hmarked hkept
    have hu' : unread τ.state d i = some u := by cases d <;> exact hu
    exact ih i u side r hu' hmarked hkept

/-- **Overflow regions outlive their readers** in every run in which the maps are updated in
time. -/
theorem Deployment.Reaches.outlives {d : Direction} (h : D.Reaches (prompt d) σ) :
    Outlives D d σ := by
  intro i t g hu hg
  have hσ := h.wellBehaved prompt_admits
  have hw := h.custodies prompt_admits
  have hwrites := unread_writes hu
  have hpast := unread_past (h.published prompt_admits) hu
  obtain ⟨r, hname, hcreated, hlatest⟩ := unread_region hσ.invariant hu hg
  have href := h.reflected t hwrites
  rw [hlatest] at href
  refine ⟨r, hname, hcreated, ?_⟩
  cases hq : custody_of σ.state.log t with
  | owed j q =>
      rw [hq] at href
      generalize hphase : phase σ.state.log t = p at href
      cases href with
      | owed _ _ =>
          obtain rfl : j = i := by
            rw [hphase] at hpast
            exact Option.some.inj hpast.slot_eq
          refine ⟨hw.local_live t r hwrites (by rw [hq]; rfl), ?_⟩
          -- the call has nothing else to do than to hand its region over
          have hkeeps := h.custody_keeps hwrites
          rw [hq] at hkeeps
          cases hp : σ.program t with
          | done v =>
              rw [hp] at hkeeps
              exact absurd rfl (hkeeps j r)
          | act a rest =>
              rw [hp] at hkeeps
              have hallowed : custody.allowed (.owed j r) a := hkeeps.1
              cases a with
              | overflow_insert side k q =>
                  obtain ⟨rfl, rfl⟩ := hallowed
                  exact .local_variable (h.careful prompt_admits hp).insert.2.1 hp
              | _ => exact hallowed.elim
  | kept side j q =>
      rw [hq] at href
      obtain ⟨heq, hpast'⟩ := href.latest_of_kept
      obtain rfl := Option.some.inj heq
      obtain rfl : j = i := Option.some.inj (hpast'.slot_eq.symm.trans hpast.slot_eq)
      have hentry := h.retained j t side r hu (by rw [hg]; nofun) hq
      exact ⟨(hw.entry side j r hentry).1, .entry (hw.side t side j r hwrites hq) hentry⟩
  | writing o =>
      rw [hq] at href
      cases href with
      | writing hp => exact absurd hpast (hp i)
  | settled j =>
      rw [hq] at href
      cases href
  | withdrawn =>
      rw [hq] at href
      cases href with
      | withdrawn hp => exact absurd hpast (hp i)

/-! ### Updates that come too late -/

theorem touched_silent {t : Thread} {a : Action} {v : Answer a} {y : Side × ℕ}
    (ha : a.touched = some y) :
    a.Silent ∧ a.written = ∅ ∧ a.status_slot = none ∧ ∀ i log,
      body_read i (⟨t, a, v⟩ :: log) = body_read i log := by
  cases a with
  | overflow_remove side j => exact ⟨trivial, rfl, rfl, fun _ _ => rfl⟩
  | overflow_insert side j q => exact ⟨trivial, rfl, rfl, fun _ _ => rfl⟩
  | _ => cases ha

/-- An update of a map changes neither the bytes nor what has been read. -/
theorem touched_same {t : Thread} {a : Action} {x : Choice} {w w' : World}
    {v : Answer a} {y : Side × ℕ} (hx : (machine D.target).exec t a x w = some (v, w'))
    (ha : a.touched = some y) (d : Direction) (i : ℕ) :
    w'.mem = w.mem ∧ unread w' d i = unread w d i := by
  have hch := exec_changes hx
  obtain ⟨hsilent, hwritten, hstatus, hread⟩ := touched_silent (t := t) (v := v) ha
  constructor
  · funext y
    refine hch.mem y (by rw [hwritten]; exact Set.notMem_empty y) fun j hj => ?_
    rw [hstatus] at hj
    cases hj
  · have howner : owner w'.log = owner w.log := by rw [hch.log, owner_silent hsilent]
    have hhistory : ∀ u, body_read i (history u w'.log) = body_read i (history u w.log) := by
      intro u
      rw [hch.log]
      by_cases htu : t = u
      · subst htu
        rw [history_cons_self, hread]
      · rw [history_cons_of_ne htu]
    cases d with
    | request => simp only [unread, howner, hhistory]
    | response => simp only [unread, howner, hhistory]

/-- Removing or replacing an entry releases the region that it held. -/
theorem touched_releases {t : Thread} {a : Action} {x : Choice} {w w' : World} {v : Answer a}
    {side : Side} {i : ℕ} {r : OverflowRegion} (hx : (machine D.target).exec t a x w = some (v, w'))
    (ha : a.touched = some (side, i)) (hentry : w.overflow_regions side i = some r)
    (hlive : w.names r.name = some r.segment) : w'.names r.name = none := by
  have hdropped : (w.drop_option (w.overflow_regions side i)).names r.name = none := by
    rw [hentry]
    show (w.drop_region r).names r.name = none
    rw [World.drop_region, if_pos hlive]
    exact Function.update_self ..
  cases a with
  | overflow_remove s j =>
      obtain ⟨rfl, rfl⟩ := Prod.mk.inj (Option.some.inj ha)
      obtain ⟨u, hu, rfl⟩ := exec_iff.mp hx
      obtain ⟨-, rfl⟩ := Prod.mk.inj (Option.some.inj hu)
      exact hdropped
  | overflow_insert s j q =>
      obtain ⟨rfl, rfl⟩ := Prod.mk.inj (Option.some.inj ha)
      obtain ⟨u, hu, rfl⟩ := exec_iff.mp hx
      obtain ⟨-, rfl⟩ := Prod.mk.inj (Option.some.inj hu)
      exact hdropped
  | _ => cases ha

/-- **An update that comes too late** takes the region away from its reader. -/
theorem not_outlives_of_late {d : Direction} (h : D.Reaches (prompt d) σ) {t : Thread} {a : Action}
    {rest : Answer a → Program bus Unit} {x : Choice} {v : Answer a} {w' : World}
    (hx : (machine D.target).exec t a x σ.state = some (v, w')) (hlate : ¬ InTime d t a σ.state) :
    ¬ Outlives D d ⟨w', Function.update σ.program t (rest v)⟩ := by
  intro houtlives
  refine hlate fun ⟨side, i⟩ hy u hu hmarked _ hhanded => ?_
  have ha : a.touched = some (side, i) := hy
  have hw := h.custodies prompt_admits
  have hwrites := unread_writes hu
  obtain ⟨g, hg⟩ := Option.ne_none_iff_exists'.mp hmarked
  obtain ⟨r, hkept⟩ := hw.handed u side i hwrites hhanded
  have hentry := h.retained i u side r hu hmarked hkept
  have hnone := touched_releases hx ha hentry (hw.entry side i r hentry).1
  -- the region of the entry is the one of the payload
  obtain ⟨r₀, hname, -, hlatest⟩ := unread_region (h.wellBehaved prompt_admits).invariant hu hg
  have href := h.reflected u hwrites
  rw [hkept, hlatest] at href
  obtain rfl := Option.some.inj href.latest_of_kept.1
  obtain ⟨hmem, hsame⟩ := touched_same hx ha d i
  obtain ⟨q, hqname, -, hqlive, -⟩ := houtlives i u g (hsame.trans hu) (by
    show marked w'.mem d i = some g
    rw [hmem]
    exact hg)
  have hsame_name : r₀.name = q.name := Option.some.inj (hname.symm.trans hqname)
  rw [hsame_name] at hnone
  cases hnone.symm.trans hqlive

/-- Along a run in which the maps are updated in time, the next step keeps the regions of what has
not been read if and only if it is in time, too. -/
theorem outlives_iff {d : Direction} (h : D.Reaches (prompt d) σ) {t : Thread} {a : Action}
    {rest : Answer a → Program bus Unit} {x : Choice} {v : Answer a} {w' : World}
    (hp : σ.program t = .act a rest) (hx : (machine D.target).exec t a x σ.state = some (v, w')) :
    Outlives D d ⟨w', Function.update σ.program t (rest v)⟩ ↔ InTime d t a σ.state := by
  constructor
  · intro houtlives
    by_contra hlate
    exact not_outlives_of_late h hx hlate houtlives
  · intro htime
    refine Deployment.Reaches.outlives (h.step ⟨.run t x, fun b k hb => ?_, ?_⟩)
    · obtain ⟨rfl, -⟩ := Program.act.inj (hp.symm.trans hb)
      exact htime
    · simp only [System.next, hp, Option.map_eq_some_iff]
      exact ⟨(v, w'), hx, rfl⟩

end Runs

/-! ### Requests and responses -/

/-- The region of an unread payload of the small bus is held. -/
theorem small_held {d : Direction} {σ : Configuration bus Thread World}
    (h : Outlives small_total_bus d σ) {t : Thread} (hu : unread σ.state d 0 = some t) {g : ℕ}
    (hg : marked σ.state.mem d 0 = some g) {n : String}
    (hn : (small_total_bus.half (small_total_bus.writer d) d 0).name g = some n) :
    σ.state.names n ≠ none := by
  obtain ⟨r, hname, -, hlive, -⟩ := h 0 t g hu hg
  obtain rfl := Option.some.inj (hn.symm.trans hname)
  rw [hlive]
  nofun

/-- **Request regions outlive their readers** exactly as long as the map of the hub is updated in
time.  In every run in which nobody removes or replaces the entry of a slot after the dispatch call
of a request that is unread there has put its handle into it, the region of every unread request is
held and can be opened; and the first update that comes too late takes one away. -/
theorem request_regions_outlive_readers {D : Deployment} {σ : Configuration bus Thread World}
    (h : D.Reaches (prompt .request) σ) : Outlives D .request σ ∧
    ∀ t a rest x v w', σ.program t = .act a rest →
      (machine D.target).exec t a x σ.state = some (v, w') →
      (Outlives D .request ⟨w', Function.update σ.program t (rest v)⟩ ↔
        InTime .request t a σ.state) :=
  ⟨h.outlives, fun _ _ _ _ _ _ hp hx => outlives_iff h hp hx⟩

/-- A large request is dispatched, and waits in its slot. -/
theorem request_regions_outlive_readers_small : ∃ σ : Configuration bus Thread World,
    unread σ.state .request 0 = some (.dispatch 0) ∧ marked σ.state.mem .request 0 = some 0 ∧
      Outlives small_total_bus .request σ := by
  have hrun : (small_total_bus.system.play (prompt .request)
      ([.launch (.dispatch (small_call "a" (large_body 1)))] ++ small_steps (.dispatch 0) 18)
      (Start small_start)).map
      (fun σ => (unread σ.state .request 0, marked σ.state.mem .request 0)) =
      some (some (.dispatch 0), some 0) := by decide +kernel
  obtain ⟨σ, hplay, hσ⟩ := Option.map_eq_some_iff.mp hrun
  obtain ⟨hu, hg⟩ := Prod.mk.inj hσ
  exact ⟨σ, hu, hg, (request_regions_outlive_readers (small_bus_reaches hplay)).1⟩

/-- The watcher frees the slot of a request, the next request is dispatched into it, and then the
watcher removes the entry of the slot. -/
theorem watcher_drops_next_request : ∃ σ : Configuration bus Thread World,
    small_total_bus.Reaches (.launching fun e w => Answers_once e w ∧ One_loop e) σ ∧
      ¬ Outlives small_total_bus .request σ := by
  have hrun : (small_total_bus.system.play (.launching fun e w => Answers_once e w ∧ One_loop e)
      ([.launch (.dispatch (small_call "a" []))] ++ small_steps (.dispatch 0) 15 ++
        [.launch (.receive 0)] ++ small_steps (.receive 0) 11 ++
        [.launch (.respond (small_reply 0 []))] ++ small_steps (.respond 0) 11 ++
        [.launch .watcher] ++ small_steps .watcher 11 ++
        [.launch (.dispatch (small_call "b" (large_body 1)))] ++ small_steps (.dispatch 1) 18 ++
        small_steps .watcher 1) (Start small_start)).map
      (fun σ => (unread σ.state .request 0, marked σ.state.mem .request 0,
        σ.state.names "p-n-req-0")) =
      some (some (.dispatch 1), some 0, none) := by decide +kernel
  obtain ⟨σ, hplay, hσ⟩ := Option.map_eq_some_iff.mp hrun
  obtain ⟨hu, hσ⟩ := Prod.mk.inj hσ
  obtain ⟨hg, hname⟩ := Prod.mk.inj hσ
  exact ⟨σ, small_bus_reaches hplay, fun h => small_held h hu hg (by decide +kernel) hname⟩

/-- **Response regions outlive their readers** exactly as long as the maps of the workers are
updated in time. -/
theorem response_regions_outlive_readers {D : Deployment} {σ : Configuration bus Thread World}
    (h : D.Reaches (prompt .response) σ) : Outlives D .response σ ∧
    ∀ t a rest x v w', σ.program t = .act a rest →
      (machine D.target).exec t a x σ.state = some (v, w') →
      (Outlives D .response ⟨w', Function.update σ.program t (rest v)⟩ ↔
        InTime .response t a σ.state) :=
  ⟨h.outlives, fun _ _ _ _ _ _ hp hx => outlives_iff h hp hx⟩

/-- A large answer is given, and waits in its slot. -/
theorem response_regions_outlive_readers_small : ∃ σ : Configuration bus Thread World,
    unread σ.state .response 0 = some (.respond 0) ∧ marked σ.state.mem .response 0 = some 0 ∧
      Outlives small_total_bus .response σ := by
  have hrun : (small_total_bus.system.play (prompt .response)
      ([.launch (.dispatch (small_call "a" []))] ++ small_steps (.dispatch 0) 15 ++
        [.launch (.receive 0)] ++ small_steps (.receive 0) 11 ++
        [.launch (.respond (small_reply 0 (large_body 1)))] ++ small_steps (.respond 0) 14)
        (Start small_start)).map
      (fun σ => (unread σ.state .response 0, marked σ.state.mem .response 0)) =
      some (some (.respond 0), some 0) := by decide +kernel
  obtain ⟨σ, hplay, hσ⟩ := Option.map_eq_some_iff.mp hrun
  obtain ⟨hu, hg⟩ := Prod.mk.inj hσ
  exact ⟨σ, hu, hg, (response_regions_outlive_readers (small_bus_reaches hplay)).1⟩

/-- A handler that has published its answer is overtaken by the next request in its slot and by the
answer to it, and puts its handle into the entry only then. -/
theorem slow_handler_drops_next_response : ∃ σ : Configuration bus Thread World,
    small_total_bus.Reaches (.launching fun e w => Answers_once e w ∧ One_loop e) σ ∧
      ¬ Outlives small_total_bus .response σ := by
  have hrun : (small_total_bus.system.play (.launching fun e w => Answers_once e w ∧ One_loop e)
      ([.launch (.dispatch (small_call "a" []))] ++ small_steps (.dispatch 0) 15 ++
        [.launch (.receive 0)] ++ small_steps (.receive 0) 11 ++
        [.launch (.respond (small_reply 0 (large_body 1)))] ++ small_steps (.respond 0) 11 ++
        [.launch .watcher, .run .watcher ⟨false, ""⟩, .run .watcher ⟨true, ""⟩] ++
          small_steps .watcher 14 ++
        [.launch (.dispatch (small_call "b" []))] ++ small_steps (.dispatch 1) 15 ++
        [.launch (.receive 0)] ++ small_steps (.receive 0) 11 ++
        [.launch (.respond (small_reply 1 (large_body 2)))] ++ small_steps (.respond 1) 14 ++
        small_steps (.respond 0) 1) (Start small_start)).map
      (fun σ => (unread σ.state .response 0, marked σ.state.mem .response 0,
        σ.state.names "p-n-rsp-0-g1")) =
      some (some (.respond 1), some 1, none) := by decide +kernel
  obtain ⟨σ, hplay, hσ⟩ := Option.map_eq_some_iff.mp hrun
  obtain ⟨hu, hσ⟩ := Prod.mk.inj hσ
  obtain ⟨hg, hname⟩ := Prod.mk.inj hσ
  exact ⟨σ, small_bus_reaches hplay, fun h => small_held h hu hg (by decide +kernel) hname⟩

end SlotBus
