import SlotBus.Bookkeeping

/-!
# Normal traffic

A bus and one worker execute complete operations one after the other, and nobody else uses their
overflow names. Every overflow region is then created at generation 0, and the overflow names that
are taken are those of the regions in the two overflow maps.

* `Traffic` — the operations, one at a time;
* `Tidy` — balanced books: every region is in its map, and has its marker;
* `dispatch_tidy`, `send_response_tidy`, `receive_slot_tidy`, `watch_slot_tidy` — each operation
  leaves balanced books;
* `generations_not_consumed` — **after every operation** generation 0 of every name is free or in
  its map.
-/

namespace SlotBus

open ByteMemory AtomicProgram AtomicProgram.Program

namespace Deployment

variable (D : Deployment) (worker : ℕ)

/-- What a bus and its only worker do, one complete operation at a time, each with any arguments and
whether it succeeds or fails; nobody else has taken an overflow name. -/
inductive Traffic : World → Prop where
  | start {mem : Memory} {names : String → Option ℕ} {segments : ℕ → Segment} {next_segment : ℕ}
      (hsetup : D.SetUp mem) (hfree : ∀ n, D.OverflowName n → names n = none) :
      Traffic (.start mem names segments next_segment)
  | dispatch {w w' : World} {t : Thread} {k : ℕ} {call : DispatchCall}
      {result : Except SlotBusError Unit} (h : Traffic w)
      (hrun : Runs (machine D.target) t (D.dispatch k call).run w result w') : Traffic w'
  | receive {w w' : World} {t : Thread} {l i : ℕ} (h : Traffic w)
      (hrun : Runs (machine D.target) t (D.receive_slot l i) w () w') : Traffic w'
  | receive_pass {w w' : World} {t : Thread} {l : ℕ} (h : Traffic w)
      (hrun : Runs (machine D.target) t (D.receive_pass l) w () w') : Traffic w'
  | respond {w w' : World} {t : Thread} {i : ℕ} {status : UInt16} {body : List UInt8}
      {content_type : String} {headers : List (String × String)}
      {result : Except SlotBusError Unit} (h : Traffic w) (hi : i < D.worker_region.num_slots)
      (hrun : Runs (machine D.target) t
        (D.send_response worker i status body content_type headers).run w result w') :
      Traffic w'
  | watcher_pass {w w' : World} {t : Thread} (h : Traffic w)
      (hrun : Runs (machine D.target) t D.watcher_pass w () w') : Traffic w'

end Deployment

/-! ### Operations on balanced books -/

/-- The entries of the slots and directions that have a region. -/
def Holdings.taken (held : Holdings) : Set (Direction × ℕ) := {x | held x.1 x.2 ≠ none}

theorem Holdings.taken_set_none (held : Holdings) (d : Direction) (i : ℕ) :
    (held.set d i none).taken = held.taken \ {(d, i)} := by
  ext x
  show held.set d i none x.1 x.2 ≠ none ↔ held x.1 x.2 ≠ none ∧ x ≠ (d, i)
  by_cases hx : x.1 = d ∧ x.2 = i
  · obtain ⟨rfl, rfl⟩ := hx
    simp [set_self]
  · have hne : x ≠ (d, i) := fun h => hx (Prod.mk.inj h)
    simp [set_of_ne hx, hne]

theorem Holdings.taken_set_some (held : Holdings) (d : Direction) (i : ℕ) (q : OverflowRegion) :
    (held.set d i (some q)).taken = after_marker held.taken d i 1 := by
  ext x
  show held.set d i (some q) x.1 x.2 ≠ none ↔ held x.1 x.2 ≠ none ∨ (1 : UInt8) = 1 ∧ x = (d, i)
  by_cases hx : x.1 = d ∧ x.2 = i
  · obtain ⟨rfl, rfl⟩ := hx
    simp [set_self]
  · have hne : x ≠ (d, i) := fun h => hx (Prod.mk.inj h)
    simp [set_of_ne hx, hne]

section Operations

variable {D : Deployment} {worker : ℕ} {held : Holdings} {d : Direction} {i : ℕ}
    {w w' : World} {α : Type}

/-- Balanced books: every region that is held is in its map, and has its marker. -/
def Tidy (D : Deployment) (worker : ℕ) (w : World) : Prop :=
  ∃ held, Books D worker held held held.taken w

/-- Balanced books without a region for one of the entries. -/
def Emptied (D : Deployment) (worker : ℕ) (d : Direction) (i : ℕ) (held : Holdings) (w : World) :
    Prop :=
  held d i = none ∧ Books D worker held held held.taken w

theorem spares_of_calm {a : Action} (ha : a.Calm) (hw : a.written = ∅) : D.Spares a :=
  ⟨ha, fun _ _ _ => hw ▸ Set.notMem_empty _⟩

theorem spares_of_looks {a : Action} (ha : a.looks) : D.Spares a := by
  cases a <;> first | exact ha.elim | exact spares_of_calm trivial rfl

theorem Tidy.keep {p : Program bus α} (hp : p.Confined D.Spares) :
    Triple (machine D.target) (Tidy D worker) p fun _ => Tidy D worker :=
  .of_exists fun held => (Books.keep hp).mono (fun _ h => h) fun _ _ h => ⟨held, h⟩

/-- **Dropping a stale region** empties the entry. -/
theorem Tidy.overflow_remove {p : Unit → Program bus α} {Q : α → World → Prop}
    (hbound : D.num_slots < 10 ^ 10)
    (hp : ∀ held, Triple (machine D.target) (Emptied D worker d i held) (p ()) Q) :
    Triple (machine D.target) (Tidy D worker) (.act (.overflow_remove (d.side worker) i) p) Q := by
  refine .act (R := fun _ w => ∃ held, Emptied D worker d i held w) ?_ fun _ => .of_exists hp
  intro t c w r w' ⟨held, h⟩ hx
  have hremoved := h.remove hbound hx
  rw [← held.taken_set_none] at hremoved
  exact ⟨_, Holdings.set_self, hremoved⟩

/-- **A new region goes into its map**, if there is one. -/
theorem Placed.overflow_insert {o : Option OverflowRegion} {p : Program bus α}
    {Q : α → World → Prop} (hnone : held d i = none)
    (hp : Triple (machine D.target) (Tidy D worker) p Q) :
    Triple (machine D.target) (Placed D worker held held held.taken d i (.ok o))
      (match o with
        | some r => .act (.overflow_insert (d.side worker) i r) fun _ => p
        | none => p) Q := by
  cases o with
  | none => exact hp.mono (fun w h => ⟨held, h⟩) fun v w h => h
  | some q =>
      refine .act (R := fun _ => Tidy D worker) ?_ fun _ => hp
      intro t c w r w' h hx
      have hput := Books.put h hnone hx
      rw [← held.taken_set_some] at hput
      exact ⟨_, hput⟩

theorem claim_first_tidy (slots : List ℕ) :
    Triple (machine D.target) (Tidy D worker) (claim_first slots)
    fun o w => (∀ i, o = some i → i ∈ slots) ∧ Tidy D worker w := by
  induction slots with
  | nil => exact .done fun w h => ⟨nofun, h⟩
  | cons i rest ih =>
      refine .act (R := fun _ => Tidy D worker) ?_ fun b => ?_
      · intro t c w r w' ⟨held, h⟩ hx
        exact ⟨held, h.spare (a := .compare_exchange i _ _) (spares_of_calm trivial rfl) hx⟩
      · cases b with
        | true =>
            refine .done fun w h => ⟨?_, h⟩
            intro j hj
            obtain rfl := Option.some.inj hj
            exact List.mem_cons_self
        | false =>
            refine ih.mono (fun w h => h) fun o w h => ⟨?_, h.2⟩
            intro j hj
            exact List.mem_cons_of_mem i (h.1 j hj)

theorem dispatch_tidy (hD : D.Sound) (hbound : D.num_slots < 10 ^ 10) (k : ℕ)
    (call : DispatchCall) :
    Triple (machine D.target) (Tidy D worker) (D.dispatch k call).run fun _ => Tidy D worker := by
  unfold Deployment.dispatch
  refine Triple.bind_except (R := fun o w => (∀ i, o = some i → i ∈ List.range D.num_slots) ∧
    Tidy D worker w)
    (.lift (claim_first_tidy _)) fun o => ?_
  cases o with
  | none => exact .done fun w h => h.2
  | some i =>
      refine Triple.of_pure fun hmem => ?_
      have hi : i < D.num_slots := List.mem_range.mp (hmem i rfl)
      cases D.request_codec.to_allocvec call.meta_ with
      | error x => exact .done fun w h => h
      | ok meta_bytes =>
          refine Tidy.overflow_remove (d := .request) hbound fun held => Triple.of_pure fun hnone =>
            ?_
          refine Triple.bind_except
            (p := ExceptT.mk (write_request D.target D.hub_region i call.req_id
              (method_to_u8 call.method) meta_bytes call.body D.config))
            (R := fun o => Placed D worker held held held.taken .request i (.ok o)) ?_ fun o => ?_
          · refine (write_request_books hD hbound hi hnone (not_not_intro hnone) _ _ _ _).mono
              (fun w h => h) ?_
            intro result w h
            cases result with
            | ok o => exact h
            | error e => exact ⟨held, h⟩
          · have hrest : Triple (machine D.target) (Tidy D worker)
                (.act (.pending_insert call.req_id k) fun _ =>
                  .act (.signal .request) fun _ => .done (.ok ()))
                fun (_ : Except SlotBusError Unit) => Tidy D worker :=
              Tidy.keep ⟨spares_of_calm trivial rfl, fun _ =>
                ⟨spares_of_calm trivial rfl, fun _ => trivial⟩⟩
            have hinsert := Placed.overflow_insert (o := o) hnone hrest
            cases o with
            | none => exact hinsert
            | some q => exact hinsert

theorem send_response_tidy (hD : D.Sound) (hbound : D.num_slots < 10 ^ 10)
    (hi : i < D.num_slots) (status : UInt16) (body : List UInt8) (content_type : String)
    (headers : List (String × String)) :
    Triple (machine D.target) (Tidy D worker)
      (D.send_response worker i status body content_type headers).run
      fun _ => Tidy D worker := by
  unfold Deployment.send_response
  cases hmeta : D.response_codec.to_allocvec ⟨content_type, headers⟩ with
  | error x =>
      simp only [hmeta]
      exact .done fun w h => h
  | ok meta_bytes =>
      simp only [hmeta]
      refine Tidy.overflow_remove (d := .response) hbound fun held => Triple.of_pure fun hnone => ?_
      have hmarked : (.response, i) ∉ held.taken := not_not_intro hnone
      refine Triple.bind_except
        (p := attempt (write_response D.target D.worker_region i status meta_bytes body D.config))
        (R := Placed D worker held held held.taken .response i)
        (.lift (write_response_books hD hbound hi hnone hmarked status meta_bytes body))
        fun result => ?_
      cases result with
      | error e =>
          refine Triple.mono (P := Tidy D worker) (Tidy.keep ?_) (fun w h => ⟨held, h⟩) fun _ w h =>
            h
          exact ⟨spares_of_calm (a := .store i SLOT_FREE) trivial rfl, fun _ => trivial⟩
      | ok o =>
          have hrest :
              Triple (machine D.target) (Tidy D worker)
              (.act (.signal .response) fun _ => .done (.ok ()))
              fun (_ : Except SlotBusError Unit) => Tidy D worker :=
            Tidy.keep ⟨spares_of_calm trivial rfl, fun _ => trivial⟩
          have hinsert := Placed.overflow_insert (o := o) hnone hrest
          cases o with
          | none => exact hinsert
          | some q => exact hinsert

theorem receive_slot_tidy (l i : ℕ) :
    Triple (machine D.target) (Tidy D worker) (D.receive_slot l i) fun _ => Tidy D worker := by
  unfold Deployment.receive_slot
  refine Tidy.keep (Confined.bind ⟨spares_of_calm trivial rfl, fun _ => trivial⟩ fun b => ?_)
  cases b with
  | false => trivial
  | true =>
      refine Confined.bind ((read_request_confined _).mono fun _ => spares_of_looks) fun result =>
        ?_
      cases result with
      | ok v => exact ⟨spares_of_calm trivial rfl, fun _ => trivial⟩
      | error e => exact ⟨spares_of_calm trivial rfl, fun _ => trivial⟩

theorem watch_slot_tidy (hbound : D.num_slots < 10 ^ 10) (i : ℕ) :
    Triple (machine D.target) (Tidy D worker) (D.watch_slot i) fun _ => Tidy D worker := by
  unfold Deployment.watch_slot
  refine Triple.bind (Tidy.keep ⟨spares_of_calm trivial rfl, fun _ => trivial⟩) fun status => ?_
  split
  · exact .done fun w h => h
  refine Triple.bind (Tidy.keep ⟨spares_of_calm trivial rfl, fun _ => trivial⟩) fun req_id => ?_
  refine Triple.bind (Tidy.keep ((read_response_confined _).mono fun _ => spares_of_looks))
    fun result => ?_
  refine Triple.bind (Tidy.keep ⟨spares_of_calm trivial rfl, fun _ => trivial⟩) fun b => ?_
  cases b with
  | false => exact .done fun w h => h
  | true =>
      refine Tidy.overflow_remove (d := .request) hbound fun held => ?_
      refine Triple.mono (P := Tidy D worker) (Tidy.keep ?_) (fun w h => ⟨held, h.2⟩) fun _ w h => h
      cases result with
      | error e => trivial
      | ok v =>
          refine ⟨spares_of_calm trivial rfl, fun o => ?_⟩
          cases o with
          | none => trivial
          | some tx => exact ⟨spares_of_calm trivial rfl, fun _ => trivial⟩

theorem for_each_tidy {visit : ℕ → Program bus Unit}
    (hvisit : ∀ i, Triple (machine D.target) (Tidy D worker) (visit i) fun _ => Tidy D worker)
    (slots : List ℕ) :
    Triple (machine D.target) (Tidy D worker) (Deployment.for_each visit slots) fun _ =>
      Tidy D worker := by
  induction slots with
  | nil => exact .done fun w h => h
  | cons i rest ih => exact .bind (hvisit i) fun _ => ih

/-- A pass of a loop waits, and then visits the slots. -/
theorem pass_tidy {side : Side} {e : NamedEvent} {visit : ℕ → Program bus Unit}
    (hvisit : ∀ i, Triple (machine D.target) (Tidy D worker) (visit i) fun _ => Tidy D worker)
    (slots : List ℕ) :
    Triple (machine D.target) (Tidy D worker)
      (running side >>= fun b => if b then wait e >>=
        fun _ => Deployment.for_each visit slots else pure ())
      fun _ => Tidy D worker := by
  refine Triple.bind (Tidy.keep ⟨spares_of_calm trivial rfl, fun _ => trivial⟩) fun b => ?_
  cases b with
  | false => exact .done fun w h => h
  | true =>
      refine Triple.bind (Tidy.keep ⟨spares_of_calm trivial rfl, fun _ => trivial⟩) fun _ => ?_
      exact for_each_tidy hvisit slots

/-! ### Whole histories -/

namespace Deployment

/-- The overflow name of an entry of the two overflow maps. -/
def entry_name (worker : ℕ) (w : World) (x : Direction × ℕ) : Option String :=
  (w.overflow_regions (x.1.side worker) x.2).map OverflowRegion.name

/-- No generation has been consumed: so far every overflow write was one of generation 0, the
regions in the two overflow maps have the name and the marker of generation 0, and the overflow
names that are taken are theirs, one for each entry. -/
structure Unconsumed (D : Deployment) (worker : ℕ) (w : World) : Prop where
  at_zero : ∀ e ∈ w.log, D.AtGenerationZero e.action
  entries : ∀ d i r, w.overflow_regions (d.side worker) i = some r → i < D.num_slots ∧
    d.overflow_name_gen D.config D.target i 0 = some r.name ∧ w.names r.name = some r.segment ∧
    w.mem (marker_address d i) = 1
  names : Set.BijOn (entry_name worker w) {x | w.overflow_regions (x.1.side worker) x.2 ≠ none}
    {o | ∃ n, o = some n ∧ D.OverflowName n ∧ w.names n ≠ none}

end Deployment

theorem Tidy.unconsumed (hbound : D.num_slots < 10 ^ 10) (h : Tidy D worker w) :
    D.Unconsumed worker w := by
  obtain ⟨held, h⟩ := h
  have hentry : ∀ d i, w.overflow_regions (d.side worker) i = held d i := h.maps
  refine ⟨h.logged, ?_, ?_, ?_, ?_⟩
  · intro d i r hr
    rw [hentry] at hr
    have htaken : (d, i) ∈ held.taken := by
      show held d i ≠ none
      rw [hr]
      exact Option.some_ne_none r
    exact ⟨h.slot_lt d i r hr, h.named d i r hr, h.stands d i r hr, (h.marked d i htaken).2⟩
  · intro (d, i) hx
    obtain ⟨r, hr⟩ := Option.ne_none_iff_exists'.mp hx
    have hheld := (hentry d i).symm.trans hr
    refine ⟨r.name, ?_, ?_, ?_⟩
    · show Option.map _ (w.overflow_regions (d.side worker) i) = some r.name
      rw [hr]
      rfl
    · exact ⟨d, i, 0, h.slot_lt d i r hheld, Nat.zero_le _, h.named d i r hheld⟩
    · rw [h.stands d i r hheld]
      exact Option.some_ne_none r.segment
  · intro (d, i) hx (e, j) hy heq
    obtain ⟨r, hr⟩ := Option.ne_none_iff_exists'.mp hx
    obtain ⟨q, hq⟩ := Option.ne_none_iff_exists'.mp hy
    have hname : r.name = q.name := by
      unfold Deployment.entry_name at heq
      rw [hr, hq] at heq
      exact Option.some.inj heq
    rw [hentry] at hr hq
    obtain ⟨rfl, rfl⟩ := h.one_name hbound (h.slot_lt d i r hr) (h.named d i r hr) hq hname.symm
    rfl
  · intro o ⟨n, ho, hn, hlive⟩
    obtain ⟨d, i, r, hr, hname⟩ := h.live n hn hlive
    have hmap := (hentry d i).trans hr
    refine ⟨(d, i), ?_, ?_⟩
    · show w.overflow_regions (d.side worker) i ≠ none
      rw [hmap]
      exact Option.some_ne_none r
    · show Option.map _ (w.overflow_regions (d.side worker) i) = o
      rw [hmap, ho, ← hname]
      rfl

namespace Deployment

/-- The slot table lies below 4 GiB, so that there are not too many slots for their names to fit. -/
theorem SetUp.few_slots {mem : Memory} (h : D.SetUp mem) : D.num_slots < 10 ^ 10 := by
  have htable := h.sound.hub_table
  have hfits := h.offset_fits
  simp only [ShmRegion.TableBelowHeap, SHM_HEADER_SIZE, SLOT_META_SIZE] at htable
  show D.hub_region.num_slots < 10 ^ 10
  omega

theorem Tidy_start {mem : Memory} {names : String → Option ℕ}
    {segments : ℕ → Segment} {next_segment : ℕ} (hfree : ∀ n, D.OverflowName n → names n = none) :
    Tidy D worker (.start mem names segments next_segment) := by
  refine ⟨fun _ _ => none, nofun, nofun, nofun, ?_, fun _ _ => rfl, ?_, nofun⟩
  · intro n hn hlive
    exact absurd (hfree n hn) hlive
  · intro d i htaken
    exact absurd rfl htaken

theorem Traffic.invariant (h : D.Traffic worker w) :
    D.Sound ∧ D.num_slots < 10 ^ 10 ∧ Tidy D worker w := by
  induction h with
  | start hsetup hfree => exact ⟨hsetup.sound, hsetup.few_slots, Tidy_start hfree⟩
  | dispatch _ hrun ih =>
      obtain ⟨hD, hbound, htidy⟩ := ih
      exact ⟨hD, hbound, dispatch_tidy hD hbound _ _ _ _ _ _ htidy hrun⟩
  | receive _ hrun ih =>
      obtain ⟨hD, hbound, htidy⟩ := ih
      exact ⟨hD, hbound, receive_slot_tidy _ _ _ _ _ _ htidy hrun⟩
  | receive_pass _ hrun ih =>
      obtain ⟨hD, hbound, htidy⟩ := ih
      exact ⟨hD, hbound, pass_tidy (fun i => receive_slot_tidy _ i) _ _ _ _ _ htidy hrun⟩
  | respond _ hi hrun ih =>
      obtain ⟨hD, hbound, htidy⟩ := ih
      exact ⟨hD, hbound,
        send_response_tidy hD hbound (hD.num_slots_eq ▸ hi) _ _ _ _ _ _ _ _ htidy hrun⟩
  | watcher_pass _ hrun ih =>
      obtain ⟨hD, hbound, htidy⟩ := ih
      exact ⟨hD, hbound, pass_tidy (fun i => watch_slot_tidy hbound i) _ _ _ _ _ htidy hrun⟩

/-- **Overflow generations are not consumed by normal traffic.**  After every operation, each of
them successful or not, all overflow writes have been of generation 0, and the overflow names that
are taken are those of the regions in the two maps. -/
theorem generations_not_consumed (h : D.Traffic worker w) : D.Unconsumed worker w := by
  obtain ⟨-, hbound, htidy⟩ := h.invariant
  exact htidy.unconsumed hbound

/-- A request and its response, both with an overflow region. -/
theorem generations_not_consumed_small : ∃ w, small_total_bus.Traffic 0 w ∧
    entry_name 0 w (.request, 0) = some "p-n-req-0" ∧
      entry_name 0 w (.response, 0) = some "p-n-rsp-0" ∧
    small_total_bus.Unconsumed 0 w := by
  let M := machine .linux
  let c : Choice := ⟨false, ""⟩
  have hrun :
      ((M.simulate (.dispatch 0) c (small_total_bus.dispatch 0 (small_call "a" (large_body 7))).run
            small_start).bind fun x =>
              (M.simulate (.receive 0) c (small_total_bus.receive_slot 0 0) x.2).bind fun y =>
          (M.simulate (.respond 0) c
          (small_total_bus.send_response 0 0 200 (large_body 8) "" []).run y.2).map fun z =>
            (entry_name 0 z.2 (.request, 0), entry_name 0 z.2 (.response, 0))) =
      some (some "p-n-req-0", some "p-n-rsp-0") := by decide +kernel
  obtain ⟨⟨result, w₁⟩, hdispatch, hrun⟩ := Option.bind_eq_some_iff.mp hrun
  obtain ⟨⟨⟨⟩, w₂⟩, hreceive, hrun⟩ := Option.bind_eq_some_iff.mp hrun
  obtain ⟨⟨answer, w₃⟩, hrespond, hrun⟩ := Option.map_eq_some_iff.mp hrun
  obtain ⟨hrequest, hresponse⟩ := Prod.mk.inj hrun
  have hstart : small_total_bus.Traffic 0 small_start := .start (small_bus_setUp _ _) fun _ _ => rfl
  have h₁ := hstart.dispatch (Machine.simulate_runs hdispatch)
  have h₂ := h₁.receive (Machine.simulate_runs hreceive)
  have h₃ := h₂.respond Nat.one_pos (Machine.simulate_runs hrespond)
  exact ⟨w₃, h₃, hrequest, hresponse, generations_not_consumed h₃⟩

end Deployment

end Operations

end SlotBus
