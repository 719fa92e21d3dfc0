import SlotBus.Drain

/-!
# No overflow region leaks

An overflow region exists as long as its name does, and the name goes when the handle of its creator
is dropped.  So a region whose handle gets lost stays for ever.

* `holding` — the handle in a local variable of a thread, as a typestate: it is given to an overflow
  map or dropped before the thread creates another region or ends;
* `dispatch_program_holding`, `respond_program_holding` — the programs keep to it on every path, the
  failing ones included;
* `no_region_leaks` — **every region that the bus has created is in an overflow map or in the hands
  of a thread that is under way**.
-/

namespace SlotBus

open ByteMemory AtomicProgram AtomicProgram.Program

/-! ### The handle in a local variable -/

/-- A thread that holds a handle gives that handle away before it gets another one. -/
def holding : Typestate bus (Option OverflowRegion) where
  allowed
    | none, .overflow_insert _ _ _ | none, .shm_drop _ => False
    | some _, .shm_create _ _ => False
    | some r, .overflow_insert _ _ q | some r, .shm_drop q => q = r
    | _, _ => True
  next
    | _, .shm_create _ _, .region r => some r
    | _, .overflow_insert _ _ _, _ => none
    | _, .shm_drop _, _ => none
    | o, _, _ => o

/-- What a thread with this history holds. -/
def holding_of (log : List Entry) (t : Thread) : Option OverflowRegion :=
  after holding none (history t log)

/-- An action that has nothing to do with the creator's handles. -/
def Action.Handless : Action → Prop
  | .shm_create _ _ | .shm_drop _ | .overflow_insert _ _ _ => False
  | _ => True

section Programs

variable {α β : Type} {o : Option OverflowRegion}

theorem holding_handless {a : Action} (ha : a.Handless) :
    holding.allowed o a ∧ ∀ r, holding.next o a r = o := by
  cases a with
  | shm_create | shm_drop | overflow_insert => exact ha.elim
  | _ =>
      cases o with
      | none => exact ⟨trivial, fun _ => rfl⟩
      | some r => exact ⟨trivial, fun _ => rfl⟩

theorem keeps_handless {p : Program bus α} (hp : p.Confined Action.Handless)
    {post : α → Option OverflowRegion → Prop} (hpost : ∀ v, post v o) : holding.Keeps post o p :=
  .of_confined hp (fun _ ha => holding_handless ha) hpost

/-- What a program returns that may have created a region: the caller gets the handle, and nothing
is left after an error. -/
def Hands_over : Except SlotBusError (Option OverflowRegion) → Option OverflowRegion → Prop
  | .ok o, q => q = o
  | .error _, q => q = none

theorem try_create_holding (n : String) (size : ℕ) :
    holding.Keeps Hands_over none (ShmRegion.try_create_exclusive n size).run := by
  refine ⟨trivial, fun (x : Created) => ?_⟩
  cases x with
  | region r => rfl
  | mapping_id_exists => rfl
  | error text => rfl

theorem create_exclusive_holding (target : Target) (n : String) (size : ℕ) :
    holding.Keeps Hands_over none (ShmRegion.create_exclusive target n size).run := by
  unfold ShmRegion.create_exclusive
  refine Typestate.Keeps.bind_except ((try_create_holding n size).mono fun result q hq => ?_)
  cases result with
  | error e => exact hq
  | ok found =>
      obtain rfl : q = found := hq
      cases q with
      | some r => rfl
      | none =>
          have hreclaim :
              (ShmRegion.reclaim_orphaned_backing_file target n).run.Confined Action.Handless := by
            cases target with
            | windows => exact ⟨trivial, fun _ => trivial⟩
            | _ => trivial
          refine Typestate.Keeps.bind_except (keeps_handless hreclaim fun result => ?_)
          cases result with
          | error e => rfl
          | ok b =>
              cases b with
              | true => exact try_create_holding n size
              | false => rfl

/-- A region that turns out to be too small is dropped. -/
theorem fill_overflow_holding (r : OverflowRegion) (n : String) (data : List UInt8) :
    holding.Keeps (fun result => Hands_over (result.map some)) (some r)
      (ShmRegion.fill_overflow r n data).run := by
  unfold ShmRegion.fill_overflow
  split
  · exact ⟨rfl, fun _ => rfl⟩
  · exact ⟨trivial, fun _ => rfl⟩

theorem create_overflow_holding (target : Target) (name_for : ℕ → Option String) (data : List UInt8)
    (remaining generation : ℕ) (last_name : String) :
    holding.Keeps (fun result => Hands_over (result.map fun x => some x.1)) none
      (ShmRegion.create_overflow_from target name_for data remaining generation last_name).run := by
  induction remaining generalizing generation last_name with
  | zero => rfl
  | succ remaining ih =>
      unfold ShmRegion.create_overflow_from
      cases name_for generation with
      | none => exact ⟨trivial, fun x => Empty.elim x⟩
      | some n =>
          show holding.Keeps _ _ ((ShmRegion.create_exclusive target n _) >>= _ : Fallible _).run
          refine Typestate.Keeps.bind_except
            ((create_exclusive_holding target n (ShmRegion.overflow_size_for data.length)).mono
              fun result q hq => ?_)
          cases result with
          | error e => exact hq
          | ok found =>
              obtain rfl : q = found := hq
              cases q with
              | none => exact ih (generation + 1) n
              | some r =>
                  refine Typestate.Keeps.bind_except
                    ((fill_overflow_holding r n data).mono fun result q hq => ?_)
                  cases result with
                  | error e => exact hq
                  | ok r' => exact hq

/-- What cannot fail comes before the rest. -/
theorem lifted_then {p : Program bus α} {f : α → Fallible β} {post : Except SlotBusError β →
    Option OverflowRegion → Prop}
    (hp : p.Confined Action.Handless) (hf : ∀ v, holding.Keeps post o (f v).run) :
    holding.Keeps post o ((liftM p : Fallible α) >>= f).run :=
  Typestate.Keeps.bind_except (Typestate.Keeps.lift (keeps_handless hp hf))

/-- What may fail comes before the rest, as long as nothing is held. -/
theorem handless_then {p : Fallible α} {f : α → Fallible β}
    {post : Except SlotBusError β → Option OverflowRegion → Prop}
    (hp : p.run.Confined Action.Handless) (herr : ∀ e, post (.error e) none)
    (hf : ∀ v, holding.Keeps post none (f v).run) :
    holding.Keeps post none (p >>= f).run := by
  refine Typestate.Keeps.bind_except (keeps_handless hp fun result => ?_)
  cases result with
  | error e => exact herr e
  | ok v => exact hf v

theorem write_handless (x : ℕ) (bytes : List UInt8) :
    (write_bytes x bytes).Confined Action.Handless :=
  ⟨trivial, fun _ => trivial⟩

theorem ensure_handless (c : Prop) [Decidable c] (e : SlotBusError) :
    (ensure c e).run.Confined Action.Handless := by
  unfold ensure
  split
  · trivial
  · trivial

theorem heap_write_handless (region : ShmRegion) (offset : ℕ) (data : List UInt8) :
    (region.heap_write_checked offset data).run.Confined Action.Handless := by
  unfold ShmRegion.heap_write_checked
  split
  · exact confined_lift (write_handless _ _)
  · trivial

/-- The last pointer fields do not fail. -/
theorem write_body_fields_holding (d : Direction) (i offset len : ℕ) (marker : UInt8) :
    holding.Keeps Hands_over o (write_body_fields d i offset len marker >>=
      fun _ => pure o).run := by
  have hlast : holding.Keeps (fun result q => match result with
      | .ok _ => holding.Keeps Hands_over q (pure o : Fallible (Option OverflowRegion)).run
      | .error e => Hands_over (.error e) q) o (write_body_fields d i offset len marker).run :=
    lifted_then (write_handless _ _) fun _ => lifted_then (write_handless _ _) fun _ =>
      Typestate.Keeps.lift (keeps_handless (write_handless _ _) fun _ => rfl)
  exact Typestate.Keeps.bind_except hlast

theorem write_body_holding (d : Direction) (target : Target) (region : ShmRegion) (i meta_len : ℕ)
    (body : List UInt8) (config : SlotBusConfig) :
    holding.Keeps Hands_over none (write_body d target region i meta_len body config).run := by
  unfold write_body
  split
  · exact write_body_fields_holding d i _ _ _
  · simp only []
    split
    · exact handless_then (heap_write_handless region _ body) (fun _ => rfl) fun _ =>
        write_body_fields_holding d i _ _ _
    · refine Typestate.Keeps.bind_except
        ((create_overflow_holding target _ body _ _ _).mono fun result q hq => ?_)
      cases result with
      | error e => exact hq
      | ok x =>
          obtain rfl : q = some x.1 := hq
          exact write_body_fields_holding d i _ _ _

/-- **Placing a payload** hands over the region that it has created, and leaves none behind if it
fails. -/
theorem write_payload_holding (d : Direction) (target : Target) (region : ShmRegion) (i : ℕ)
    (meta_bytes body : List UInt8) (config : SlotBusConfig) :
    holding.Keeps Hands_over none (write_payload d target region i meta_bytes body config).run := by
  unfold write_payload
  refine handless_then (ensure_handless _ _) (fun _ => rfl) fun _ => ?_
  refine handless_then (heap_write_handless _ _ _) (fun _ => rfl) fun _ => ?_
  refine lifted_then (write_handless _ _) fun _ => ?_
  refine lifted_then (write_handless _ _) fun _ => ?_
  exact write_body_holding d target region i meta_bytes.length body config

/-- The slot is published after its payload has been placed. -/
theorem publish_holding {p : Fallible (Option OverflowRegion)} {i v : ℕ}
    (hp : holding.Keeps Hands_over none p.run) :
    holding.Keeps Hands_over none
      (p >>= fun overflow => (liftM (store i v) : Fallible Unit) >>=
        fun _ => pure overflow).run := by
  refine Typestate.Keeps.bind_except (hp.mono fun result q hq => ?_)
  cases result with
  | error e => exact hq
  | ok overflow =>
      obtain rfl : q = overflow := hq
      exact lifted_then ⟨trivial, fun _ => trivial⟩ fun _ => rfl

theorem write_request_holding (target : Target) (region : ShmRegion) (i : ℕ)
    (req_id : String) (method : UInt8) (meta_bytes body : List UInt8) (config : SlotBusConfig) :
    holding.Keeps Hands_over none
      (write_request target region i req_id method meta_bytes body config) := by
  have hinner : holding.Keeps Hands_over none
      (write_request_inner target region i req_id method meta_bytes body config).run := by
    unfold write_request_inner
    refine handless_then (ensure_handless _ _) (fun _ => rfl) fun _ => ?_
    refine lifted_then (write_handless _ _) fun _ => ?_
    refine lifted_then (write_handless _ _) fun _ => ?_
    refine lifted_then (write_handless _ _) fun _ => ?_
    exact publish_holding (write_payload_holding .request target region i meta_bytes body config)
  refine Typestate.Keeps.bind (hinner.mono fun result q hq => ?_)
  cases result with
  | ok overflow => exact hq
  | error e =>
      obtain rfl : q = none := hq
      exact ⟨trivial, fun _ => rfl⟩

theorem write_response_holding (target : Target) (region : ShmRegion) (i : ℕ) (status : UInt16)
    (meta_bytes body : List UInt8) (config : SlotBusConfig) :
    holding.Keeps Hands_over none
      (write_response target region i status meta_bytes body config).run := by
  unfold write_response
  refine handless_then (ensure_handless _ _) (fun _ => rfl) fun _ => ?_
  refine lifted_then (write_handless _ _) fun _ => ?_
  exact publish_holding (write_payload_holding .response target region i meta_bytes body config)

theorem dispatch_program_holding (D : Deployment) (k : ℕ) (call : DispatchCall) :
    holding.Keeps (fun _ q => q = none) none (D.dispatch_program k call) := by
  have hdispatch : holding.Keeps (fun _ q => q = none) none (D.dispatch k call).run := by
    unfold Deployment.dispatch
    have hclaim : ∀ slots, (claim_first slots).Confined Action.Handless := by
      intro slots
      induction slots with
      | nil => trivial
      | cons i rest ih =>
          refine ⟨trivial, fun (b : Bool) => ?_⟩
          cases b with
          | true => trivial
          | false => exact ih
    refine lifted_then (hclaim _) fun claimed => ?_
    cases claimed with
    | none => rfl
    | some i =>
        cases D.request_codec.to_allocvec call.meta_ with
        | error x => rfl
        | ok meta_bytes =>
            refine ⟨trivial, fun _ => ?_⟩
            refine Typestate.Keeps.bind_except
              (p := ExceptT.mk (write_request D.target D.hub_region i call.req_id
                (method_to_u8 call.method) meta_bytes call.body D.config))
              ((write_request_holding D.target D.hub_region i call.req_id (method_to_u8 call.method)
                meta_bytes call.body
                D.config).mono fun result q hq => ?_)
            cases result with
            | error x => exact hq
            | ok overflow =>
                obtain rfl : q = overflow := hq
                cases q with
                | none => exact ⟨trivial, fun _ => ⟨trivial, fun _ => rfl⟩⟩
                | some r => exact ⟨rfl, fun _ => ⟨trivial, fun _ => ⟨trivial, fun _ => rfl⟩⟩⟩
  refine Typestate.Keeps.bind (hdispatch.mono fun result q hq => ?_)
  subst hq
  exact ⟨trivial, fun _ => rfl⟩

theorem respond_program_holding (D : Deployment) (inv : Invocation) (reply : Reply) :
    holding.Keeps (fun _ q => q = none) none (D.respond_program inv reply) := by
  have hsend :
      holding.Keeps (fun _ q => q = none) none
      (D.send_response inv.worker inv.slot reply.status reply.body
          reply.content_type reply.headers).run := by
    unfold Deployment.send_response
    cases hmeta : D.response_codec.to_allocvec ⟨reply.content_type, reply.headers⟩ with
    | error x =>
        simp only [hmeta]
        rfl
    | ok meta_bytes =>
        simp only [hmeta]
        refine ⟨trivial, fun _ => ?_⟩
        refine Typestate.Keeps.bind_except
          (p := attempt (write_response D.target D.worker_region inv.slot reply.status
            meta_bytes reply.body D.config))
              (Typestate.Keeps.lift ((write_response_holding D.target D.worker_region inv.slot
                reply.status meta_bytes reply.body D.config).mono fun result q hq => ?_))
        cases result with
        | error x =>
            obtain rfl : q = none := hq
            exact ⟨trivial, fun _ => rfl⟩
        | ok overflow =>
            obtain rfl : q = overflow := hq
            cases q with
            | none => exact ⟨trivial, fun _ => rfl⟩
            | some r => exact ⟨rfl, fun _ => ⟨trivial, fun _ => rfl⟩⟩
  refine Typestate.Keeps.bind (hsend.mono fun result q hq => ?_)
  subst hq
  exact ⟨trivial, fun _ => rfl⟩

theorem looks_handless {a : Action} (ha : a.looks) : a.Handless := by
  cases a with
  | read | shm_open | shm_read | panic => trivial
  | _ => exact ha.elim

theorem receive_slot_handless (D : Deployment) (l i : ℕ) :
    (D.receive_slot l i).Confined Action.Handless := by
  unfold Deployment.receive_slot
  refine ⟨trivial, fun (b : Bool) => ?_⟩
  cases b with
  | false => trivial
  | true =>
      refine Confined.bind
        (p := (read_request D.request_codec D.target D.worker_region i D.config).run)
        ((read_request_confined D.request_codec).mono fun _ => looks_handless) fun result => ?_
      cases result with
      | ok request => exact ⟨trivial, fun _ => trivial⟩
      | error e => exact ⟨trivial, fun _ => trivial⟩

theorem watch_slot_handless (D : Deployment) (i : ℕ) :
    (D.watch_slot i).Confined Action.Handless := by
  unfold Deployment.watch_slot
  refine ⟨trivial, fun (status : ℕ) => ?_⟩
  show Program.Confined _ (if status ≠ SLOT_DONE then _ else _)
  split
  · trivial
  refine ⟨trivial, fun raw => ?_⟩
  refine Confined.bind (p := (read_response D.response_codec D.target D.hub_region i D.config).run)
    ((read_response_confined D.response_codec).mono fun _ => looks_handless) fun result => ?_
  refine ⟨trivial, fun (b : Bool) => ?_⟩
  cases b with
  | false => trivial
  | true =>
      refine ⟨trivial, fun _ => ?_⟩
      cases result with
      | error e => trivial
      | ok answer =>
          refine ⟨trivial, fun (found : Option ℕ) => ?_⟩
          cases found with
          | none => trivial
          | some tx => exact ⟨trivial, fun _ => trivial⟩

end Programs

/-! ### Where the regions are -/

section Steps

variable {D : Deployment} {discipline : Discipline bus Thread World Launch}
    {σ : Configuration bus Thread World}

/-- **No thread loses a handle**, in any run. -/
theorem Deployment.Reaches.holds (h : D.Reaches discipline σ) (t : Thread) :
    holding.Keeps (fun _ q => q = none) (holding_of σ.state.log t) (σ.program t) := by
  let rest : Option OverflowRegion → Prop := fun q => q = none
  have hstart : rest none := rfl
  show holding.Keeps (fun _ => rest) (after holding none (history t σ.state.log)) (σ.program t)
  refine h.keeps hstart fun e w p w' hl q hq => ?_
  cases (show q = none from hq)
  rcases Deployment.launch_cases hl with ⟨call, -, -, rfl, -⟩ | ⟨-, -, rfl, -⟩ | ⟨l, -, -, rfl, -⟩ |
    ⟨reply, inv, -, -, -, rfl, -⟩
  · exact dispatch_program_holding D _ call
  · exact keeps_handless (Deployment.pass_confined (watch_slot_handless D) trivial trivial _)
      fun _ => rfl
  · exact keeps_handless (Deployment.pass_confined (receive_slot_handless D l) trivial trivial _)
      fun _ => rfl
  · exact respond_program_holding D inv reply

/-- The region that has a name is in an overflow map, or a thread holds it. -/
def Accounted (w : World) (n : String) (s : ℕ) : Prop :=
  (∃ side i r, w.overflow_regions side i = some r ∧ r.name = n ∧ r.segment = s) ∨
    ∃ t r, holding_of w.log t = some r ∧ r.name = n ∧ r.segment = s

variable {target : Target} {t u : Thread} {a : Action} {c : Choice} {v : Answer a}
    {w w' : World} {n : String} {s : ℕ}

theorem drop_region_none {r : OverflowRegion} (h : w.names r.name = some r.segment) :
    (w.drop_region r).names r.name = none := by
  unfold World.drop_region
  rw [if_pos h]
  exact Function.update_self _ _ _

theorem holding_of_cons_self :
    holding_of (⟨t, a, v⟩ :: w.log) t = holding.next (holding_of w.log t) a v := by
  rw [holding_of, history_cons_self]
  rfl

theorem holding_of_cons_of_ne (h : t ≠ u) :
    holding_of (⟨t, a, v⟩ :: w.log) u = holding_of w.log u := by
  rw [holding_of, history_cons_of_ne h]
  rfl

/-- A region that keeps its name stays where it is, or moves from the hands of a thread into a
map. -/
theorem Accounted.step (hx : (machine target).exec t a c w = some (v, w'))
    (hallowed : holding.allowed (holding_of w.log t) a) (h : Accounted w n s)
    (hsame : w.names n = some s) (hn : w'.names n = some s) : Accounted w' n s := by
  have hch := exec_changes hx
  rcases h with ⟨side, i, r, hentry, rfl, rfl⟩ | ⟨u, r, hr, rfl, rfl⟩
  · -- whatever replaces the entry drops it
    have hdrop : ∀ w'' : World, w''.names = ((w.drop_option (w.overflow_regions side i)).names) →
        w''.names r.name = none := by
      intro w'' hnames
      rw [hnames, hentry]
      exact drop_region_none hsame
    rcases hch.overflow_regions side i with hkept | ⟨rfl, -⟩ | ⟨q, rfl, -⟩
    · exact .inl ⟨side, i, r, hkept.trans hentry, rfl, rfl⟩
    · obtain ⟨x, hx', rfl⟩ := exec_iff.mp hx
      obtain ⟨-, rfl⟩ := Prod.mk.inj (Option.some.inj hx')
      cases hn.symm.trans (hdrop _ rfl)
    · obtain ⟨x, hx', rfl⟩ := exec_iff.mp hx
      obtain ⟨-, rfl⟩ := Prod.mk.inj (Option.some.inj hx')
      cases hn.symm.trans (hdrop _ rfl)
  · by_cases hu : t = u
    · subst hu
      rw [hr] at hallowed
      by_cases ha : a.Handless
      · refine .inr ⟨t, r, ?_, rfl, rfl⟩
        rw [hch.log, holding_of_cons_self, (holding_handless ha).2, hr]
      · cases a with
        | shm_create => exact hallowed.elim
        | shm_drop q =>
            obtain rfl : q = r := hallowed
            obtain ⟨x, hx', rfl⟩ := exec_iff.mp hx
            obtain ⟨-, rfl⟩ := Prod.mk.inj (Option.some.inj hx')
            cases hn.symm.trans (drop_region_none hsame)
        | overflow_insert side i q =>
            obtain rfl : q = r := hallowed
            obtain ⟨x, hx', rfl⟩ := exec_iff.mp hx
            obtain ⟨-, rfl⟩ := Prod.mk.inj (Option.some.inj hx')
            exact .inl ⟨side, i, q, by simp [World.set_overflow], rfl, rfl⟩
        | _ => exact absurd trivial ha
    · refine .inr ⟨u, r, ?_, rfl, rfl⟩
      rw [hch.log, holding_of_cons_of_ne hu]
      exact hr

/-- A name that appears is in the hands of the thread that has created it. -/
theorem accounted_created (hx : (machine target).exec t a c w = some (v, w'))
    (hallowed : holding.allowed (holding_of w.log t) a) (hold : w.names n ≠ some s)
    (hn : w'.names n = some s) :
    Accounted w' n s := by
  have hch := exec_changes hx
  rcases hch.names n with hkept | ⟨hnone, -⟩ | ⟨size, rfl, hfree, hnew⟩
  · exact absurd (hkept.symm.trans hn) hold
  · cases hn.symm.trans hnone
  · obtain rfl := Option.some.inj (hnew.symm.trans hn)
    obtain ⟨x, hx', rfl⟩ := exec_iff.mp hx
    simp only [effect] at hx'
    split at hx'
    · obtain ⟨-, rfl⟩ := Prod.mk.inj (Option.some.inj hx')
      cases hfree.symm.trans hnew
    · split at hx'
      · obtain ⟨-, rfl⟩ := Prod.mk.inj (Option.some.inj hx')
        cases hfree.symm.trans hnew
      · obtain ⟨rfl, rfl⟩ := Prod.mk.inj (Option.some.inj hx')
        refine .inr ⟨t, ⟨n, w.next_segment, size⟩, ?_, rfl, rfl⟩
        exact congrArg (after holding none) (history_cons_self t _ _ _)

theorem reachable_accounted {mem : Memory} {names : String → Option ℕ}
    {segments : ℕ → Segment} {next : ℕ} (hsetup : D.SetUp mem)
    (h : Reachable D.system discipline (Start (.start mem names segments next)) σ)
    (n : String) (s : ℕ) (hn : σ.state.names n = some s) :
    names n = some s ∨ Accounted σ.state n s := by
  induction h generalizing n s with
  | refl => exact .inl hn
  | @tail τ υ hτ hstep ih =>
      have hreaches : D.Reaches discipline τ := ⟨mem, names, segments, next, hsetup, hτ⟩
      obtain ⟨t, a, k, c, r, w', hp, -, hx, rfl⟩ | ⟨e, t, p, w', -, -, hx, rfl⟩ := step_cases hstep
      · have hkeeps := hreaches.holds t
        rw [hp] at hkeeps
        by_cases hold : τ.state.names n = some s
        · exact (ih n s hold).imp_right fun hacc => hacc.step hx hkeeps.1 hold hn
        · exact .inr (accounted_created hx hkeeps.1 hold hn)
      · obtain ⟨calls, replies, rfl⟩ := Deployment.launch_eq hx
        exact ih n s hn

/-- **No region leaks**: in every run, whatever the surrounding programs do, a name that exists was
there before the bus, or its region is in an overflow map, or in the hands of a thread that is under
way. -/
theorem no_region_leaks {mem : Memory} {names : String → Option ℕ} {segments : ℕ → Segment}
    {next : ℕ} (hsetup : D.SetUp mem)
    (h : Reachable D.system discipline (Start (.start mem names segments next)) σ)
    (hn : σ.state.names n = some s) :
    names n = some s ∨
      (∃ side i r, σ.state.overflow_regions side i = some r ∧ r.name = n ∧ r.segment = s) ∨
      ∃ t r, σ.program t ≠ .done () ∧ holding_of σ.state.log t = some r ∧
        r.name = n ∧ r.segment = s := by
  refine (reachable_accounted hsetup h n s hn).imp_right fun hacc => hacc.imp_right fun hheld => ?_
  obtain ⟨t, r, hr, hname, hsegment⟩ := hheld
  refine ⟨t, r, fun hdone => ?_, hr, hname, hsegment⟩
  have hreaches : D.Reaches discipline σ := ⟨mem, names, segments, next, hsetup, h⟩
  have hkeeps := hreaches.holds t
  rw [hdone] at hkeeps
  have hnone : holding_of σ.state.log t = none := hkeeps
  cases hr.symm.trans hnone

/-- The region of a large request, just after it has been created. -/
theorem no_region_leaks_small : ∃ σ : Configuration bus Thread World,
    (σ.state.names "p-n-req-0").isSome ∧
    ((∃ side i r, σ.state.overflow_regions side i = some r ∧ r.name = "p-n-req-0") ∨
      ∃ t r, σ.program t ≠ .done () ∧ holding_of σ.state.log t = some r ∧
        r.name = "p-n-req-0") := by
  have hrun : (small_total_bus.system.play (.launching fun _ _ => True)
      ([.launch (.dispatch (small_call "a" (large_body 1)))] ++ small_steps (.dispatch 0) 11)
      (Start small_start)).map
      (fun σ => (σ.state.names "p-n-req-0").isSome) = some true := by decide +kernel
  obtain ⟨σ, hplay, hsome⟩ := Option.map_eq_some_iff.mp hrun
  obtain ⟨s, hs⟩ := Option.isSome_iff_exists.mp hsome
  rcases no_region_leaks (D := small_total_bus) (small_bus_setUp _ _)
    (reachable_of_play hplay) hs with
    hbefore | ⟨side, i, r, hr, hname, -⟩ | ⟨t, r, hp, hr, hname, -⟩
  · cases hbefore
  · exact ⟨σ, hsome, .inl ⟨side, i, r, hr, hname⟩⟩
  · exact ⟨σ, hsome, .inr ⟨t, r, hp, hr, hname⟩⟩

end Steps

end SlotBus
