import SlotBus.Protocol

/-!
# Legal actions keep the invariant

* `Move` — what a legal action does to the ledger and to the status words;
* `quiet_of_legal` — a legal action of anyone but the tenant leaves a half alone;
* `legal_invariant`, `launch_invariant` — the protocol keeps its invariant;
* `protocol` — the contract that all threads of a bus meet.
-/

namespace SlotBus

open ByteMemory AtomicProgram

/-! ### Status words -/

theorem slot_status_congr {m m' : Memory} {i : ℕ} (h : AgreeOn (status_word i) m m') :
    slot_status m' i = slot_status m i := by
  rw [slot_status, slot_status, load, load, h.read Set.Subset.rfl]

theorem slot_status_set_self {w : World} {i v : ℕ} (hv : v < 2 ^ 32) :
    slot_status (w.set_status i v).mem i = v := by
  rw [slot_status, World.set_status, load_write_same]
  exact Nat.mod_eq_of_lt hv

theorem slot_status_set_of_ne {w : World} {i j v : ℕ} (h : i ≠ j) :
    slot_status (w.set_status i v).mem j = slot_status w.mem j :=
  slot_status_congr fun _ hx =>
    (status_write_outside (Set.disjoint_right.mp (status_word_disjoint h) hx)).symm

theorem status_lt (o : Owner) : o.status < 2 ^ 32 := by
  cases o <;> simp [Owner.status, SLOT_FREE, SLOT_WRITING, SLOT_READY, SLOT_CLAIMED, SLOT_DONE]

/-- A writer of a half touches no status word. -/
theorem SlotHalf.own_written {H : SlotHalf} (hH : H.InTable) {t : Thread}
    {log : List Entry} {a : Action} (ha : H.Own t log a) {j : ℕ} (hj : j < H.region.num_slots) :
    Disjoint a.written (status_word j) := by
  cases a with
  | write x bytes =>
      rcases ha.1 with h | h
      · exact (record_disjoint_status _ _ _).mono_left h
      · exact (status_word_disjoint_heap hH.table hj).symm.mono_left h
  | _ => exact Set.disjoint_left.mpr fun _ hx => hx.elim

theorem SlotHalf.own_silent {H : SlotHalf} {t : Thread} {log : List Entry} {a : Action}
    (ha : H.Own t log a) : a.Silent ∧ a.status_slot = none := by
  cases a <;> first | exact ha.elim | exact ⟨trivial, rfl⟩

theorem Action.Bystander.silent {a : Action} (ha : a.Bystander) :
    a.Silent ∧ a.status_slot = none ∧ a.written = ∅ := by
  cases a <;> first | exact ha.elim | exact ⟨trivial, rfl, rfl⟩

theorem Action.reads.bystander {a : Action} (ha : a.reads) : a.Bystander := by
  cases a <;> first | exact ha | exact ha.elim

/-! ### The ledger of the next state -/

section Ledgers

variable {target : Target} {t : Thread} {a : Action} {c : Choice} {w w' : World} {r : Answer a}

theorem phase_cons (log : List Entry) :
    phase (⟨t, a, r⟩ :: log) = Function.update (phase log) t
      (Entry.advance ⟨t, a, r⟩ (phase log t)) := by
  funext u
  by_cases hu : u = t
  · subst hu
    rw [Function.update_self, phase_cons_self]
  · rw [Function.update_of_ne hu, phase_cons_of_ne (Ne.symm hu)]

/-- An action that begins no invocation. -/
theorem ledger_of_exec (h : (machine target).exec t a c w = some (r, w'))
    (ha : ∀ wk i q, a ≠ .handle wk i q) :
    w'.ledger = { w.ledger with
      owner := owner (⟨t, a, r⟩ :: w.log)
      phase := Function.update (phase w.log) t (Entry.advance ⟨t, a, r⟩ (phase w.log t)) } := by
  have hch := exec_changes h
  have hinv : w'.invocations = w.invocations := by
    rcases hch.invocations with h' | ⟨wk, i, q, rfl, -⟩
    · exact h'
    · exact absurd rfl (ha wk i q)
  simp only [World.ledger, hch.log, hch.replies, hinv, phase_cons]

/-- An action after which its thread is where it was. -/
theorem ledger_still (h : (machine target).exec t a c w = some (r, w')) (ha : a.Silent)
    (hphase : Entry.advance ⟨t, a, r⟩ (phase w.log t) = phase w.log t) : w'.ledger = w.ledger := by
  rw [ledger_of_exec h (by rintro wk i q rfl; exact ha), owner_silent ha, hphase,
    Function.update_eq_self]
  rfl

/-- Finishing matters only after a failure to serialize. -/
theorem advance_finish {result : Except SlotBusError Unit} {p : Phase} {x : Unit}
    (h : ¬ ∃ e, result = .error (.Serialization e) ∧ p = .idle) :
    Entry.advance ⟨t, .finish result, x⟩ p = p := by
  cases result with
  | ok v => rfl
  | error e =>
      cases e with
      | Serialization text => cases p <;> first | rfl | exact absurd ⟨text, rfl, rfl⟩ h
      | _ => rfl

/-- The slots of the invocations after one more. -/
theorem getElem?_append_singleton {α β : Type} (l : List α) (x : α) (f : α → β) :
    (fun n : ℕ => (l ++ [x])[n]?.map f) = Function.update (fun n : ℕ => l[n]?.map f)
      l.length (some (f x)) := by
  funext n
  by_cases hn : n = l.length
  · subst hn
    simp
  · rw [Function.update_of_ne hn]
    by_cases hlt : n < l.length
    · rw [List.getElem?_append_left hlt]
    · rw [List.getElem?_eq_none (by simp; omega), List.getElem?_eq_none (by omega)]

end Ledgers

namespace Deployment

variable {D : Deployment}

/-- What a legal action of thread `t` does to the ledger and to the status words, and what is in a
slot that it publishes. -/
inductive Move (D : Deployment) (t : Thread) (a : Action) (w w' : World) : Prop where
  | still (hledger : w'.ledger = w.ledger)
      (hstatus : ∀ j < D.num_slots, slot_status w'.mem j = slot_status w.mem j)
  | follow {p : Phase} (h : (phase w.log t).Follows p)
      (hledger : w'.ledger = { w.ledger with phase := Function.update (phase w.log) t p })
      (hstatus : ∀ j < D.num_slots, slot_status w'.mem j = slot_status w.mem j)
  | turn {i : ℕ} {o : Owner} {p : Phase} (ha : a.status_slot = some i) (hi : i < D.num_slots)
      (h : w.ledger.Turn t i o p) (hledger : w'.ledger = w.ledger.pass t i o p)
      (hmem : w'.mem = (w.set_status i o.status).mem)
      (hrequest : ∀ k, o = .ready k → D.RequestIn w i k)
      (hresponse : ∀ n k c, o = .done n k c → D.ResponseIn w i c)
  | invoke {l k i : ℕ} {request : Request} (ht : t = .receive l) (h : owner w.log i = .reading l k)
      (hrequest : D.Handed w k request)
      (hledger : w'.ledger =
        { w.ledger.pass t i (.handling w.invocations.length k) (.released i) with
          slot_of := Function.update w.ledger.slot_of w.invocations.length (some i) })
      (hstatus : ∀ j < D.num_slots, slot_status w'.mem j = slot_status w.mem j)
      (hinvocations : w'.invocations = w.invocations ++ [⟨D.worker_of l, i, request⟩])
      (hreceived : ∀ n, received n w'.log = if n = w.invocations.length then some
        k else received n w.log)

theorem Sound.writer_inTable (hD : D.Sound) (d : Direction) {i : ℕ} (hi : i < D.num_slots) :
    (D.half (D.writer d) d i).InTable := by
  cases d with
  | request => exact ⟨hD.hub_table, hi⟩
  | response => exact ⟨hD.worker_table, hD.num_slots_eq ▸ hi⟩

theorem Sound.reader_inTable (hD : D.Sound) (d : Direction) {i : ℕ} (hi : i < D.num_slots) :
    (D.half (D.reader d) d i).InTable := by
  cases d with
  | request => exact ⟨hD.worker_table, hD.num_slots_eq ▸ hi⟩
  | response => exact ⟨hD.hub_table, hi⟩

theorem Sound.writer_slots (hD : D.Sound) (d : Direction) :
    (D.writer d).num_slots = D.num_slots := by
  cases d with
  | request => rfl
  | response => exact hD.num_slots_eq

section Steps

variable {t : Thread} {a : Action} {c : Choice} {w w' : World} {r : Answer a}

theorem Tenant.slot_lt {d : Direction} {i : ℕ} (hI : D.Invariant w) (h : Tenant w t d i) :
    i < D.num_slots := by
  refine hI.range i ?_
  cases h with
  | request h => simp [h]
  | response h => simp [h]

/-- An action that writes no status word keeps the statuses. -/
theorem status_of_exec (hx : (machine D.target).exec t a c w = some (r, w'))
    (hstatus : a.status_slot = none)
    (hwritten : ∀ j < D.num_slots, Disjoint a.written (status_word j)) :
    ∀ j < D.num_slots, slot_status w'.mem j = slot_status w.mem j := by
  intro j hj
  refine slot_status_congr fun x hxj => ((exec_changes hx).mem x ?_ ?_).symm
  · exact Set.disjoint_right.mp (hwritten j hj) hxj
  · intro i hi
    rw [hstatus] at hi
    cases hi

/-- A store to a status word. -/
theorem mem_of_store {i v : ℕ} {r : Unit}
    (hx : (machine D.target).exec t (.store i v) c w = some (r, w')) :
    w'.mem = (w.set_status i v).mem := by
  obtain ⟨u, hu, rfl⟩ := exec_iff.mp hx
  obtain ⟨-, rfl⟩ := Prod.mk.inj (Option.some.inj hu)
  rfl

/-- A compare-exchange succeeds exactly if the slot has the expected status. -/
theorem mem_of_swap {i expected new : ℕ} {r : Bool}
    (hx : (machine D.target).exec t (.compare_exchange i expected new) c w = some (r, w')) :
    r = true ∧ slot_status w.mem i = expected ∧ w'.mem = (w.set_status i new).mem ∨
      r = false ∧ slot_status w.mem i ≠ expected ∧ w'.mem = w.mem := by
  obtain ⟨u, hu, rfl⟩ := exec_iff.mp hx
  simp only [effect] at hu
  split at hu <;> obtain ⟨rfl, rfl⟩ := Prod.mk.inj (Option.some.inj hu)
  · exact .inl ⟨rfl, by assumption, rfl⟩
  · exact .inr ⟨rfl, by assumption, rfl⟩

/-- A silent action that keeps its thread where it is. -/
theorem Move.of_silent (hx : (machine D.target).exec t a c w = some (r, w')) (ha : a.Silent)
    (hphase : Entry.advance ⟨t, a, r⟩ (phase w.log t) = phase w.log t)
    (hstatus : a.status_slot = none)
    (hwritten : ∀ j < D.num_slots, Disjoint a.written (status_word j)) : D.Move t a w w' :=
  .still (ledger_still hx ha hphase) (status_of_exec hx hstatus hwritten)

/-- A silent action that carries its thread on. -/
theorem Move.of_follow {p : Phase} (hx : (machine D.target).exec t a c w = some (r, w'))
    (ha : a.Silent) (hphase : Entry.advance ⟨t, a, r⟩ (phase w.log t) = p)
    (hp : (phase w.log t).Follows p) (hstatus : a.status_slot = none) (hwritten : a.written = ∅) :
    D.Move t a w w' := by
  refine .follow hp ?_ (status_of_exec hx hstatus fun j _ => hwritten ▸ Set.empty_disjoint _)
  rw [ledger_of_exec hx (by rintro wk i q rfl; exact ha), owner_silent ha, hphase]
  rfl

/-- A compare-exchange of a slot with this owner. -/
theorem Move.of_swap {i expected new : ℕ} {r : Bool} {o : Owner}
    (hx : (machine D.target).exec t (.compare_exchange i expected new) c w = some (r, w'))
    (hi : i < D.num_slots) (hnew : new = o.status)
    (hturn : slot_status w.mem i = expected → w.ledger.Turn t i o (.holding i))
    (howner : slot_status w.mem i = expected →
      owner (⟨t, .compare_exchange i expected new, true⟩ :: w.log) =
        Function.update (owner w.log) i o)
    (hready : ∀ k, o ≠ .ready k) (hdone : ∀ n k c, o ≠ .done n k c) :
    D.Move t (.compare_exchange i expected new) w w' := by
  have hledger := ledger_of_exec hx nofun
  rcases mem_of_swap hx with ⟨rfl, hs, hmem⟩ | ⟨rfl, -, hmem⟩
  · refine .turn rfl hi (hturn hs) ?_ (hnew ▸ hmem) (fun k h => absurd h (hready k))
      fun n k c h => absurd h (hdone n k c)
    rw [hledger, howner hs]
    rfl
  · refine .still ?_ fun j _ => by rw [hmem]
    rw [hledger, owner_swap_failed]
    show { w.ledger with
        owner := owner w.log, phase := Function.update (phase w.log) t (phase w.log t) } = _
    rw [Function.update_eq_self]
    rfl

/-- A store to the status word of a slot the thread has. -/
theorem Move.of_store {i v : ℕ} {r : Unit} {o : Owner} {p : Phase}
    (hx : (machine D.target).exec t (.store i v) c w = some (r, w')) (hi : i < D.num_slots)
    (hv : v = o.status) (hturn : w.ledger.Turn t i o p)
    (howner : owner (⟨t, .store i v, r⟩ :: w.log) = Function.update (owner w.log) i o)
    (hphase : Entry.advance ⟨t, .store i v, r⟩ (phase w.log t) = p)
    (hrequest : ∀ k, o = .ready k → D.RequestIn w i k)
    (hresponse : ∀ n k c, o = .done n k c → D.ResponseIn w i c) : D.Move t (.store i v) w w' := by
  refine .turn rfl hi hturn ?_ (hv ▸ mem_of_store hx) hrequest hresponse
  rw [ledger_of_exec hx nofun, howner, hphase]
  rfl

/-- **What a legal action does to the ledger.** -/
theorem Legal.move (hD : D.Sound) (hI : D.Invariant w) (hl : D.Legal w t a)
    (hx : (machine D.target).exec t a c w = some (r, w')) : D.Move t a w w' := by
  have hnone : ∀ b : Action, b.written = ∅ → ∀ j < D.num_slots,
      Disjoint b.written (status_word j) :=
    fun b hb j _ => hb ▸ Set.empty_disjoint _
  cases hl with
  | bystander ha =>
      obtain ⟨h1, h2, h3⟩ := ha.silent
      refine .of_silent hx h1 ?_ h2 (hnone a h3)
      cases a <;> first | exact ha.elim | rfl
  | @own t a d i ht ha =>
      obtain ⟨h1, h2⟩ := SlotHalf.own_silent ha
      refine .of_silent hx h1 ?_ h2 fun j hj =>
        SlotHalf.own_written (hD.writer_inTable d (ht.slot_lt hI)) ha (hD.writer_slots d ▸ hj)
      cases a <;> first | exact ha.elim | rfl
  | claim hi hidle =>
      refine .of_swap hx hi rfl (fun hs => .claim (Owner.eq_free ?_) hidle)
        (fun _ => rfl) nofun nofun
      exact (hI.status _ hi).symm.trans hs
  | drop_request h => exact .of_silent hx trivial rfl rfl (hnone _ rfl)
  | publish h hP =>
      refine .of_store hx (hI.range _ (by simp [h])) rfl (.publish h) rfl rfl ?_ nofun
      rintro k ⟨⟩
      exact hP
  | withdraw h =>
      exact .of_store hx (hI.range _ (by simp [h])) rfl (.withdraw h) rfl rfl nofun nofun
  | @keep_request k i q h hr =>
      exact .of_follow (p := .kept i) hx trivial rfl (h ▸ .keep i) rfl rfl
  | @register k i call hcall h =>
      rcases h with h | h
      · refine .of_follow (p := .registered i) hx trivial ?_ (h ▸ .register i) rfl rfl
        rw [h]
        rfl
      · refine .of_follow (p := .registered i) hx trivial ?_ (h ▸ .register_kept i) rfl rfl
        rw [h]
        rfl
  | @take l i hi hidle =>
      by_cases hs : slot_status w.mem i = SLOT_READY
      · obtain ⟨k, hk⟩ := Owner.eq_ready ((hI.status _ hi).symm.trans hs)
        refine .of_swap (o := .reading l k) hx hi rfl (fun _ => .take hk hidle)
          (fun _ => ?_) nofun nofun
        show Function.update (owner w.log) i _ = _
        rw [hk]
      · exact .of_swap (o := .reading l 0) hx hi rfl (fun h => absurd h hs)
          (fun h => absurd h hs) nofun nofun
  | @invoke l i k request h hrequest =>
      have hstatus := status_of_exec hx rfl (hnone _ rfl)
      obtain ⟨u, hu, rfl⟩ := exec_iff.mp hx
      obtain ⟨rfl, rfl⟩ := Prod.mk.inj (Option.some.inj hu)
      refine .invoke rfl h hrequest ?_ hstatus rfl fun n => ?_
      · simp only [World.ledger, Ledger.pass, owner, Entry.passes, h, Ledger.mk.injEq]
        exact ⟨trivial, phase_cons _, getElem?_append_singleton _ _ _, trivial⟩
      · simp only [received, h, Owner.call, beq_iff_eq]
  | @reject l i k h =>
      exact .of_store hx (hI.range _ (by simp [h])) rfl (.reject h) rfl rfl nofun nofun
  | drop_response h => exact .of_silent hx trivial rfl rfl (hnone _ rfl)
  | answer h hP =>
      cases h with
      | response h hc =>
          refine .of_store hx (hI.range _ (by simp [h])) rfl (.answer h hc) ?_ rfl ?_ ?_
          · show Function.update (owner w.log) _ _ = _
            rw [h]
            rfl
          · rintro k ⟨⟩
          · rintro n k c ⟨⟩
            exact hP
  | give_up h =>
      cases h with
      | response h hc =>
          refine .of_store hx (hI.range _ (by simp [h])) rfl (.give_up h hc) ?_ rfl nofun nofun
          show Function.update (owner w.log) _ _ = _
          rw [h]
          rfl
  | @keep_response c' i wk q h hr =>
      exact .of_follow (p := .kept i) hx trivial rfl (h ▸ .keep i) rfl rfl
  | @collect i hi =>
      by_cases hs : slot_status w.mem i = SLOT_DONE
      · obtain ⟨n, k, c', hd⟩ := Owner.eq_done ((hI.status _ hi).symm.trans hs)
        exact .of_swap (o := .free) hx hi rfl (fun _ => .collect hd) (fun _ => rfl) nofun nofun
      · exact .of_swap (o := .free) hx hi rfl (fun h => absurd h hs) (fun _ => rfl) nofun nofun
  | drop_collected h => exact .of_silent hx trivial rfl rfl (hnone _ rfl)
  | look_up h hid => exact .of_silent hx trivial rfl rfl (hnone _ rfl)
  | deliver h htx hresponse => exact .of_silent hx trivial rfl rfl (hnone _ rfl)
  | @finish t result =>
      by_cases hfail : ∃ e, result = .error (.Serialization e) ∧ phase w.log t = .idle
      · obtain ⟨e, rfl, hidle⟩ := hfail
        refine .of_follow (p := .failed) hx trivial ?_ (hidle ▸ .fail) rfl rfl
        rw [hidle]
        rfl
      · exact .of_silent hx trivial (advance_finish hfail) rfl (hnone _ rfl)

/-! ### What a legal action leaves alone -/

theorem Legal.status_slot_lt (hI : D.Invariant w) (hl : D.Legal w t a) {j : ℕ}
    (hj : a.status_slot = some j) :
    j < D.num_slots := by
  cases hl with
  | bystander ha =>
      rw [ha.silent.2.1] at hj
      cases hj
  | own ht ha =>
      rw [(SlotHalf.own_silent ha).2] at hj
      cases hj
  | claim hi | take hi | collect hi => exact Option.some.inj hj ▸ hi
  | publish h | withdraw h | reject h => exact Option.some.inj hj ▸ hI.range _ (by simp [h])
  | answer h | give_up h => exact Option.some.inj hj ▸ h.slot_lt hI
  | _ => cases hj

/-- Only the writer of a half writes the mapping, creates a name or fills a segment. -/
theorem Legal.own_of_writes (hl : D.Legal w t a)
    (ha : a.written ≠ ∅ ∨ (∃ n size, a = .shm_create n size) ∨ ∃ q data, a = .shm_write q data) :
    ∃ d i, Tenant w t d i ∧ (D.half (D.writer d) d i).Own t w.log a := by
  cases hl with
  | own ht ha => exact ⟨_, _, ht, ha⟩
  | bystander hb =>
      rcases ha with ha | ⟨_, _, rfl⟩ | ⟨_, _, rfl⟩
      · exact absurd hb.silent.2.2 ha
      · exact hb.elim
      · exact hb.elim
  | _ =>
      rcases ha with ha | ⟨_, _, ha⟩ | ⟨_, _, ha⟩
      · exact absurd rfl ha
      · cases ha
      · cases ha

/-- Faithful handles place the arenas at the same addresses. -/
theorem Faithful.arena_eq (hD : D.Sound) (hf : D.Faithful) (d e f : Direction) (i : ℕ) :
    arena (D.writer d) f i = arena (D.writer e) f i := by
  have h : arena D.worker_region f i = arena D.hub_region f i := by
    simp only [arena, ShmRegion.slot_arenas, hf.heap_offset_eq, hf.heap_size_eq, hD.num_slots_eq]
  cases d <;> cases e <;> first | rfl | exact h | exact h.symm

theorem Faithful.heap_lt_writer (hf : D.Faithful) (d : Direction) :
    (D.writer d).heap_size < 2 ^ 32 := by
  cases d with
  | request => exact hf.heap_lt
  | response => exact hf.heap_size_eq ▸ hf.heap_lt

/-- What the tenant of one half writes lies outside every other half. -/
theorem own_area_disjoint (hD : D.Sound) {d e : Direction} {i j : ℕ} (hi : i < D.num_slots)
    (hj : j < D.num_slots) (hne : d ≠ e ∨ i ≠ j) {log : List Entry}
    (ha : (D.half (D.writer e) e j).Own t log a) :
    Disjoint ((D.half (D.writer d) d i).area D.Faithful) a.written := by
  have htable : ∀ f, (D.writer f).TableBelowHeap := fun f => (hD.writer_inTable f hi).table
  cases a with
  | write x bytes =>
      rw [Set.disjoint_left]
      rintro y (hy | ⟨hf, hy⟩) hyw
      · -- a byte of the record: the other tenant writes its own record, or the heap
        rcases ha.1 with hsub | hsub
        · exact Set.disjoint_left.mp (record_disjoint hne) hy (hsub hyw)
        · exact Set.disjoint_left.mp
            (record_disjoint_heap (htable e) d (hD.writer_slots e ▸ hi)) hy (hsub hyw)
      · have hsub := ha.2 (hf.heap_lt_writer e)
        rcases hsub hyw with hr | hr
        · exact Set.disjoint_left.mp
            (arena_disjoint_record (htable d) d e (hD.writer_slots d ▸ hi) (hD.writer_slots d ▸ hj))
              hy hr
        · have hr' : y ∈ arena (D.writer d) e j := hf.arena_eq hD d e e j ▸ hr
          exact Set.disjoint_left.mp (arena_disjoint (D.writer d) hne) hy hr'
  | _ => exact Set.disjoint_left.mpr fun _ _ hx => hx.elim

/-- **A legal action of anyone but the tenant leaves a half alone.** -/
theorem quiet_of_legal (hD : D.Sound) (hI : D.Invariant w) (hl : D.Legal w t a)
    (hx : (machine D.target).exec t a c w = some (r, w')) {d : Direction}
    {i : ℕ} (hi : i < D.num_slots) (hforeign : Tenant w t d i →
      ¬ (D.half (D.writer d) d i).Own t w.log a) :
    (D.half (D.writer d) d i).Quiet D.Faithful D.Tracked False w w' := by
  have hch := exec_changes hx
  have hother : ∀ {e j}, Tenant w t e j → (D.half (D.writer e) e j).Own t w.log a →
      d ≠ e ∨ i ≠ j := by
    rintro e j ht ha
    by_contra hsame
    push Not at hsame
    obtain ⟨rfl, rfl⟩ := hsame
    exact hforeign ht ha
  have hnames : D.Tracked → ∀ {e j}, Tenant w t e j → (D.half (D.writer e) e j).Own t w.log a → ∀ n,
      (D.half (D.writer d) d i).OwnName n → ¬ (D.half (D.writer e) e j).OwnName n := by
    intro htracked e j ht ha n hn
    have hj := ht.slot_lt hI
    have hbound : D.target = .macos → i < 1000 ∧ j < 1000 := fun hmac => by
      have := htracked hmac
      omega
    exact SlotHalf.own_name_disjoint (H := D.half (D.writer d) d i)
      (K := D.half (D.writer e) e j) rfl rfl
      hbound (hother ht ha) hn
  refine ⟨fun x hxa => (hch.mem x ?_ ?_).symm, fun htracked n hn => ?_,
    fun htracked u q hq hn => ?_, ?_⟩
  · intro hxw
    obtain ⟨e, j, ht, ha⟩ := hl.own_of_writes (.inl (Set.nonempty_iff_ne_empty.mp ⟨x, hxw⟩))
    exact Set.disjoint_left.mp (own_area_disjoint hD hi (ht.slot_lt hI) (hother ht ha) ha) hxa hxw
  · intro j hj
    have hjlt := hl.status_slot_lt hI hj
    exact Set.disjoint_left.mp (SlotHalf.footprint_disjoint_status (hD.writer_inTable d hi)
      (hD.writer_slots d ▸ hjlt)) (SlotHalf.area_subset_footprint hxa)
  · rcases hch.names n with h | ⟨h, -⟩ | ⟨size, rfl, -⟩
    · exact .inl h
    · exact .inr ⟨not_false, h⟩
    · obtain ⟨e, j, ht, ha⟩ := hl.own_of_writes (.inr (.inl ⟨n, size, rfl⟩))
      exact absurd ha (hnames htracked ht ha n hn)
  · rcases hch.segments q.segment with h | ⟨hs, -⟩ | ⟨p, data, rfl, hs, -⟩
    · exact h
    · have := hI.consistent.lt_next u q hq
      omega
    · obtain ⟨e, j, ht, ha⟩ := hl.own_of_writes (.inr (.inr ⟨p, data, rfl⟩))
      obtain ⟨-, rfl⟩ := hI.consistent.unique _ _ _ _ hq ha.2 hs
      exact absurd ha.1 (hnames htracked ht ha q.name hn)
  · intro e he
    rw [hch.log]
    exact List.mem_cons_of_mem _ he

/-! ### The invariant is kept -/

theorem Invariant.received_lt (hI : D.Invariant w) {n k : ℕ} (h : received n w.log = some k) :
    n < w.invocations.length := by
  obtain ⟨inv, hinv, -⟩ := hI.invoked n k h
  exact (List.getElem?_eq_some_iff.mp hinv).1

/-- The owner of the next state is that of the next ledger. -/
theorem Move.owner_cases (hm : D.Move t a w w') :
    owner w'.log = owner w.log ∨
      (∃ i o p, a.status_slot = some i ∧ i < D.num_slots ∧ w.ledger.Turn t i o p ∧
        owner w'.log = Function.update (owner w.log) i o ∧ (∀ k, o = .ready k → D.RequestIn w i k) ∧
        ∀ n k c, o = .done n k c → D.ResponseIn w i c) ∨
      ∃ l k i, t = .receive l ∧ owner w.log i = .reading l k ∧
        received w.invocations.length w'.log = some k ∧
        owner w'.log = Function.update (owner w.log) i (.handling w.invocations.length k) := by
  cases hm with
  | still hledger _ => exact .inl (congrArg Ledger.owner hledger)
  | follow _ hledger _ => exact .inl (congrArg Ledger.owner hledger)
  | turn ha hi h hledger _ hrequest hresponse =>
      exact .inr (.inl ⟨_, _, _, ha, hi, h, congrArg Ledger.owner hledger, hrequest, hresponse⟩)
  | invoke ht h _ hledger _ _ hreceived =>
      exact .inr (.inr ⟨_, _, _, ht, h, by rw [hreceived, if_pos rfl],
        congrArg Ledger.owner hledger⟩)

/-- **The faithful model refines the ledger**: a legal action is a step of the ledger, or leaves it
as it is. -/
theorem Move.refines (hI : D.Invariant w) (hm : D.Move t a w w') :
    w'.ledger = w.ledger ∨ w.ledger.Step w'.ledger := by
  cases hm with
  | still hledger _ => exact .inl hledger
  | follow h hledger _ => exact .inr (hledger ▸ .follow h)
  | turn _ _ h hledger _ _ _ => exact .inr (hledger ▸ .turn h)
  | invoke ht h _ hledger _ _ _ =>
      subst ht
      refine .inr (hledger ▸ .invoke h (by simp [World.ledger]) fun c hc => ?_)
      obtain ⟨reply, hreply, heq⟩ := Option.map_eq_some_iff.mp hc
      have := hI.replied c reply hreply
      omega

/-- Calls, invocations and replies are never forgotten. -/
theorem Invariant.extends (hI : D.Invariant w)
    (hx : (machine D.target).exec t a c w = some (r, w')) :
    w.Extends w' := by
  have hch := exec_changes hx
  refine ⟨fun k call h => hch.calls ▸ h, fun n inv h => ?_, fun c reply h =>
    hch.replies ▸ h, fun n k h => ?_⟩
  · rcases hch.invocations with heq | ⟨_, _, _, -, heq⟩
    · exact heq ▸ h
    · rw [heq, List.getElem?_append_left (List.getElem?_eq_some_iff.mp h).1]
      exact h
  · rw [hch.log]
    by_cases ha : ∃ wk i q, a = .handle wk i q
    · obtain ⟨wk, i, q, rfl⟩ := ha
      obtain ⟨u, hu, rfl⟩ := exec_iff.mp hx
      obtain ⟨rfl, -⟩ := Prod.mk.inj (Option.some.inj hu)
      rw [received_handle_of_ne (Nat.ne_of_lt (hI.received_lt h))]
      exact h
    · push Not at ha
      rw [received_of_ne_handle ha]
      exact h

theorem Handed.mono {k : ℕ} {request : Request} (hw : w.Extends w') (h : D.Handed w k request) :
    D.Handed w' k request := by
  obtain ⟨call, hcall, hcarries⟩ := h
  exact ⟨call, hw.calls k call hcall, hcarries⟩

theorem Answers.mono {n : ℕ} {response : Response} (hw : w.Extends w')
    (h : D.Answers w n response) :
    D.Answers w' n response := by
  obtain ⟨reply, hreply, hconveys⟩ := h
  exact ⟨reply, hw.replies n reply hreply, hconveys⟩

/-- A placed request is still there after an action that leaves its half alone. -/
theorem RequestIn.quiet {i k : ℕ} (h : D.RequestIn w i k) (hw : w.Extends w')
    (hquiet : (D.half (D.writer .request) .request i).Quiet D.Faithful D.Tracked False w w')
    (hlatest : latest_region (history (.dispatch k) w'.log) =
      latest_region (history (.dispatch k) w.log)) :
    D.RequestIn w' i k := by
  obtain ⟨call, meta_bytes, P, m, hcall, hmeta, hfilled⟩ := h
  exact ⟨call, meta_bytes, P, m, hw.calls k call hcall, hmeta, hquiet.filled hlatest hfilled⟩

theorem ResponseIn.quiet {i n : ℕ} (h : D.ResponseIn w i n) (hw : w.Extends w')
    (hquiet : (D.half (D.writer .response) .response i).Quiet D.Faithful D.Tracked False w w')
    (hlatest : latest_region (history (.respond n) w'.log) =
      latest_region (history (.respond n) w.log)) :
    D.ResponseIn w' i n := by
  obtain ⟨reply, meta_bytes, P, m, hreply, hmeta, hfilled⟩ := h
  exact ⟨reply, meta_bytes, P, m, hw.replies n reply hreply, hmeta, hquiet.filled hlatest hfilled⟩

/-- A thread creates regions only as the tenant of a half. -/
theorem latest_of_legal (hl : D.Legal w t a) (hx : (machine D.target).exec t a c w = some (r, w'))
    {u : Thread} (hu : ∀ d i, Tenant w u d i → a.status_slot ≠ none) :
    latest_region (history u w'.log) = latest_region (history u w.log) := by
  rw [(exec_changes hx).log]
  by_cases htu : t = u
  · subst htu
    refine latest_region_cons fun n size ha => ?_
    obtain ⟨d, i, ht, -⟩ := hl.own_of_writes (.inr (.inl ⟨n, size, ha⟩))
    exact hu d i ht (ha ▸ rfl)
  · rw [history_cons_of_ne htu]

theorem Invariant.not_own (hl : a.status_slot ≠ none) {H : SlotHalf} {log : List Entry} :
    ¬ H.Own t log a :=
  fun ha => hl (SlotHalf.own_silent ha).2

/-- A request stays in its slot until the slot is given back. -/
theorem request_step (hD : D.Sound) (hI : D.Invariant w) (hl : D.Legal w t a)
    (hx : (machine D.target).exec t a c w = some (r, w')) {i k : ℕ}
    (hk : (owner w.log i).call = some k) (hturn : owner w.log i = .writing k → a.status_slot ≠ none)
    (h : D.RequestIn w i k) :
    D.RequestIn w' i k := by
  have hi : i < D.num_slots := hI.range i fun hfree => by
    rw [hfree] at hk
    cases hk
  refine h.quiet (hI.extends hx) (quiet_of_legal hD hI hl hx hi ?_) (latest_of_legal hl hx ?_)
  · rintro ⟨hw⟩
    rw [hw] at hk
    obtain rfl := Option.some.inj hk
    exact Invariant.not_own (hturn hw)
  · rintro d j ⟨hw⟩
    -- the slot that dispatch call `k` writes is the slot that holds its request
    have h1 := hI.ledger.claimed i k hk
    have h2 : phase w.log (.dispatch k) = .holding j := (hI.ledger.writing j k).mp hw
    change (phase w.log (.dispatch k)).slot = some i at h1
    rw [h2] at h1
    obtain rfl := Option.some.inj h1
    exact hturn hw

/-- A response stays in its slot until the watcher takes it. -/
theorem response_step (hD : D.Sound) (hI : D.Invariant w) (hl : D.Legal w t a)
    (hx : (machine D.target).exec t a c w = some (r, w')) {i n k b : ℕ}
    (hk : owner w.log i = .done n k b ∨ owner w.log i = .handling n k ∧ a.status_slot ≠ none)
    (h : D.ResponseIn w i b) : D.ResponseIn w' i b := by
  have hi : i < D.num_slots := hI.range i fun hfree => by simp [hfree] at hk
  refine h.quiet (hI.extends hx) (quiet_of_legal hD hI hl hx hi ?_) (latest_of_legal hl hx ?_)
  · rintro (_ | ⟨hw, -⟩)
    rcases hk with hk | ⟨-, hk⟩
    · rw [hw] at hk
      cases hk
    · exact Invariant.not_own hk
  · rintro d j (_ | ⟨hw, hsole⟩)
    rcases hk with hk | ⟨-, hk⟩
    · exact absurd (.inl hsole.idle) (hI.ledger.done i n k b hk).2.2
    · exact hk

theorem Move.status (hI : D.Invariant w) (hm : D.Move t a w w') :
    ∀ j < D.num_slots, slot_status w'.mem j = (owner w'.log j).status := by
  intro j hj
  cases hm with
  | still hledger hstatus =>
      rw [hstatus j hj, show owner w'.log = owner w.log from congrArg Ledger.owner hledger]
      exact hI.status j hj
  | follow _ hledger hstatus =>
      rw [hstatus j hj, show owner w'.log = owner w.log from congrArg Ledger.owner hledger]
      exact hI.status j hj
  | @turn i o p _ hi h hledger hmem _ _ =>
      rw [hmem, show owner w'.log = Function.update (owner w.log) i o from congrArg
        Ledger.owner hledger]
      by_cases hij : i = j
      · subst hij
        rw [slot_status_set_self (status_lt o), Function.update_self]
      · rw [slot_status_set_of_ne hij, Function.update_of_ne (Ne.symm hij)]
        exact hI.status j hj
  | @invoke l k i _ _ h _ hledger hstatus _ _ =>
      rw [hstatus j hj,
        show owner w'.log = Function.update (owner w.log) i _ from congrArg Ledger.owner hledger]
      by_cases hij : j = i
      · subst hij
        rw [Function.update_self, hI.status j hj, h]
        rfl
      · rw [Function.update_of_ne hij]
        exact hI.status j hj

theorem Move.range (hI : D.Invariant w) (hm : D.Move t a w w') :
    ∀ j, owner w'.log j ≠ .free → j < D.num_slots := by
  intro j hj
  rcases hm.owner_cases with heq | ⟨i, o, p, -, hi, -, heq, -⟩ | ⟨l, k, i, -, h, -, heq⟩
  · exact hI.range j (heq ▸ hj)
  · by_cases hij : j = i
    · exact hij ▸ hi
    · rw [heq, Function.update_of_ne hij] at hj
      exact hI.range j hj
  · by_cases hij : j = i
    · exact hI.range j (by simp [hij, h])
    · rw [heq, Function.update_of_ne hij] at hj
      exact hI.range j hj

theorem Legal.request (hD : D.Sound) (hI : D.Invariant w) (hl : D.Legal w t a)
    (hm : D.Move t a w w') (hx : (machine D.target).exec t a c w = some (r, w')) {j k : ℕ}
    (hk : (owner w'.log j).call = some k) (hw : owner w'.log j ≠ .writing k) :
    D.RequestIn w' j k := by
  -- what was there before stays
  have hold : (owner w.log j).call = some k → owner w.log j ≠ .writing k → D.RequestIn w' j k :=
    fun h1 h2 => request_step hD hI hl hx h1 (fun h => absurd h h2) (hI.request j k h1 h2)
  rcases hm.owner_cases with heq | ⟨i, o, p, ha, hi, h, heq, hrequest, -⟩ | ⟨l, k', i, -, h, -, heq⟩
  · exact hold (heq ▸ hk) (heq ▸ hw)
  · by_cases hij : j = i
    · subst hij
      rw [heq, Function.update_self] at hk hw
      cases h with
      | claim h hidle =>
          obtain rfl := Option.some.inj hk
          exact absurd rfl hw
      | publish h =>
          obtain rfl := Option.some.inj hk
          have hcall : (owner w.log j).call = some _ := congrArg Owner.call h
          exact request_step hD hI hl hx hcall (fun _ hnone => by simp [ha] at hnone)
            (hrequest _ rfl)
      | take h hidle =>
          have h' : owner w.log j = .ready _ := h
          exact hold (h' ▸ hk) (by simp [h'])
      | answer h hc =>
          have h' : owner w.log j = .handling _ _ := h
          exact hold (h' ▸ hk) (by simp [h'])
      | _ => cases hk
    · rw [heq, Function.update_of_ne hij] at hk hw
      exact hold hk hw
  · by_cases hij : j = i
    · subst hij
      rw [heq, Function.update_self] at hk hw
      exact hold (h ▸ hk) (by simp [h])
    · rw [heq, Function.update_of_ne hij] at hk hw
      exact hold hk hw

theorem Legal.response (hD : D.Sound) (hI : D.Invariant w) (hl : D.Legal w t a)
    (hm : D.Move t a w w') (hx : (machine D.target).exec t a c w = some (r, w')) {j n k b : ℕ}
    (hk : owner w'.log j = .done n k b) : D.ResponseIn w' j b := by
  have hold : owner w.log j = .done n k b → D.ResponseIn w' j b :=
    fun h => response_step hD hI hl hx (.inl h) (hI.response j n k b h)
  rcases hm.owner_cases with heq | ⟨i, o, p, ha, hi, h, heq, -,
    hresponse⟩ | ⟨l, k', i, -, h, -, heq⟩
  · exact hold (heq ▸ hk)
  · by_cases hij : j = i
    · subst hij
      rw [heq, Function.update_self] at hk
      subst hk
      cases h with
      | answer h hc =>
          have h' : owner w.log j = .handling _ _ := h
          exact response_step hD hI hl hx (.inr ⟨h', by simp [ha]⟩) (hresponse _ _ _ rfl)
    · rw [heq, Function.update_of_ne hij] at hk
      exact hold hk
  · by_cases hij : j = i
    · rw [heq, hij, Function.update_self] at hk
      cases hk
    · rw [heq, Function.update_of_ne hij] at hk
      exact hold hk

theorem Move.handed (hI : D.Invariant w) (hm : D.Move t a w w') (hw : w.Extends w') {j n k : ℕ}
    (hj : owner w'.log j = .handling n k ∨ ∃ b, owner w'.log j = .done n k b) :
    received n w'.log = some k := by
  have hold : (owner w.log j = .handling n k ∨ ∃ b, owner w.log j = .done n k b) →
      received n w'.log = some k := fun h => hw.received n k (hI.handed j n k h)
  rcases hm.owner_cases with heq | ⟨i, o, p, ha, hi, h, heq, -, -⟩ | ⟨l, k',
    i, -, h, hreceived, heq⟩
  · exact hold (heq ▸ hj)
  · by_cases hij : j = i
    · subst hij
      rw [heq, Function.update_self] at hj
      cases h with
      | answer h hc =>
          have h' : owner w.log j = .handling _ _ := h
          rcases hj with hj | ⟨b, hj⟩
          · cases hj
          · cases hj
            exact hold (.inl h')
      | _ =>
          rcases hj with hj | ⟨b, hj⟩ <;> cases hj
    · rw [heq, Function.update_of_ne hij] at hj
      exact hold hj
  · by_cases hij : j = i
    · rw [heq, hij, Function.update_self] at hj
      rcases hj with hj | ⟨b, hj⟩ <;> cases hj
      exact hreceived
    · rw [heq, Function.update_of_ne hij] at hj
      exact hold hj

theorem Legal.invoked (hI : D.Invariant w) (hl : D.Legal w t a) (hm : D.Move t a w w')
    (hx : (machine D.target).exec t a c w = some (r, w')) {n k : ℕ}
    (hn : received n w'.log = some k) :
    ∃ inv, w'.invocations[n]? = some inv ∧ D.Handed w' k inv.request := by
  have hw := hI.extends hx
  have hold : received n w.log = some k → ∃ inv, w'.invocations[n]? = some inv ∧
      D.Handed w' k inv.request := by
    intro h
    obtain ⟨inv, hinv, hhanded⟩ := hI.invoked n k h
    exact ⟨inv, hw.invocations n inv hinv, hhanded.mono hw⟩
  by_cases ha : ∀ wk i q, a ≠ .handle wk i q
  · rw [(exec_changes hx).log, received_of_ne_handle ha] at hn
    exact hold hn
  · push Not at ha
    obtain ⟨wk, i, q, rfl⟩ := ha
    cases hl with
    | bystander hb => exact hb.elim
    | own _ ho => exact ho.elim
    | @invoke l _ _ _ h hrequest =>
        obtain ⟨u, hu, rfl⟩ := exec_iff.mp hx
        obtain ⟨rfl, rfl⟩ := Prod.mk.inj (Option.some.inj hu)
        change (if n == w.invocations.length then (owner w.log i).call else received n w.log) =
          some k at hn
        by_cases hlen : n = w.invocations.length
        · rw [if_pos (beq_iff_eq.mpr hlen), h] at hn
          obtain rfl := Option.some.inj hn
          exact ⟨⟨D.worker_of l, i, q⟩, by simp [hlen], hrequest.mono hw⟩
        · rw [if_neg (by simpa using hlen)] at hn
          exact hold hn

theorem Legal.resolved (hI : D.Invariant w) (hl : D.Legal w t a)
    (hx : (machine D.target).exec t a c w = some (r, w')) {k : ℕ} {response : Response}
    (hk : w'.resolved k = some response) (hids : w'.ProperIds) :
    ∃ n b reply, w'.replies[b]? = some reply ∧ reply.invocation = n ∧ received n w'.log = some k ∧
      D.Answers w' b response := by
  have hw := hI.extends hx
  rcases (exec_changes hx).resolved k with heq | ⟨response', rfl, heq⟩
  · obtain ⟨n, b, reply, h1, h2, h3, h4⟩ := hI.resolved k response (heq ▸ hk) (hw.properIds hids)
    exact ⟨n, b, reply, hw.replies b reply h1, h2, hw.received n k h3, h4.mono hw⟩
  · obtain rfl := Option.some.inj (heq.symm.trans hk)
    cases hl with
    | bystander hb => exact hb.elim
    | own _ ho => exact ho.elim
    | deliver h htx hresponse =>
        obtain ⟨n, reply, -, h1, h2, h3⟩ := h
        obtain rfl := htx (hw.properIds hids)
        exact ⟨n, _, reply, hw.replies _ reply h1, h2, hw.received n _ h3, hresponse.mono hw⟩

theorem Legal.pending (hI : D.Invariant w) (hl : D.Legal w t a)
    (hx : (machine D.target).exec t a c w = some (r, w')) {id : String} {k : ℕ}
    (hk : w'.pending id = some k) : ∃ call, w'.calls[k]? = some call ∧ call.req_id = id := by
  have hch := exec_changes hx
  rw [hch.calls]
  rcases hch.pending id with heq | ⟨-, hnone⟩ | ⟨tx, rfl, heq⟩
  · exact hI.pending id k (heq ▸ hk)
  · rw [hnone] at hk
    cases hk
  · obtain rfl := Option.some.inj (heq.symm.trans hk)
    cases hl with
    | bystander hb => exact hb.elim
    | own _ ho => exact ho.elim
    | register hcall _ => exact ⟨_, hcall, rfl⟩

/-- **A legal action keeps the invariant.** -/
theorem legal_invariant (hD : D.Sound) (hI : D.Invariant w) (hknows : w.Knows t)
    (hl : D.Legal w t a) (hx : (machine D.target).exec t a c w = some (r, w')) :
    D.Invariant w' := by
  have hch := exec_changes hx
  have hm := hl.move hD hI hx
  have hw := hI.extends hx
  refine ⟨exec_consistent hI.consistent hx, ?_, hm.status hI, hm.range hI, ?_, ?_,
    fun j k => hl.request hD hI hm hx, fun j n k b => hl.response hD hI hm hx,
    fun j n k => hm.handed hI hw, fun n k => hl.invoked hI hm hx, fun id k => hl.pending hI hx,
    fun k response => hl.resolved hI hx⟩
  · rcases hm.refines hI with heq | hstep
    · exact heq ▸ hI.ledger
    · exact Ledger.step_invariant hI.ledger hstep
  · intro e he
    rw [hch.log] at he
    have hlen : w.calls.length ≤ w'.calls.length ∧ w.replies.length ≤ w'.replies.length := by
      rw [hch.calls, hch.replies]
      exact ⟨le_rfl, le_rfl⟩
    rcases List.mem_cons.mp he with rfl | he
    · exact hknows.mono hlen.1 hlen.2
    · exact (hI.known e he).mono hlen.1 hlen.2
  · intro b reply hb
    rw [hch.replies] at hb
    have hlt := hI.replied b reply hb
    rcases hch.invocations with heq | ⟨_, _, _, -, heq⟩
    · exact heq ▸ hlt
    · rw [heq, List.length_append]
      exact Nat.lt_add_right _ hlt

/-! ### Launches -/

/-- A thread that has not been launched has done nothing. -/
theorem Invariant.phase_of_unknown (hI : D.Invariant w) (ht : ¬ w.Knows t) :
    phase w.log t = .idle := by
  have hnil : history t w.log = [] := by
    rw [history, List.filter_eq_nil_iff]
    intro e he heq
    exact ht (of_decide_eq_true heq ▸ hI.known e he)
  rw [phase, hnil]
  rfl

theorem extends_of_append (w : World) (calls : List DispatchCall) (replies : List Reply) :
    w.Extends { w with calls := w.calls ++ calls, replies := w.replies ++ replies } where
  calls k call h := by
    rw [List.getElem?_append_left (List.getElem?_eq_some_iff.mp h).1]
    exact h
  invocations _ _ h := h
  replies c reply h := by
    rw [List.getElem?_append_left (List.getElem?_eq_some_iff.mp h).1]
    exact h
  received _ _ h := h

/-- More calls and replies keep the invariant, if they keep the ledger's. -/
theorem Invariant.append (hI : D.Invariant w) (calls : List DispatchCall) (replies : List Reply)
    (hledger : World.ledger { w with calls := w.calls ++ calls, replies := w.replies ++ replies }
      |>.Invariant)
    (hreplies : ∀ reply ∈ replies, reply.invocation < w.invocations.length) :
    D.Invariant { w with calls := w.calls ++ calls, replies := w.replies ++ replies } := by
  have hw := extends_of_append w calls replies
  refine ⟨⟨hI.consistent.lt_next, hI.consistent.unique⟩, hledger, hI.status,
    hI.range, fun e he => ?_, ?_,
    fun i k hk hne => ?_, fun i n k c hk => ?_, hI.handed, fun n k hn => ?_, fun id k hk => ?_,
    fun k response hk hids => ?_⟩
  · exact (hI.known e he).mono (by simp) (by simp)
  · intro c reply hc
    rcases List.mem_append.mp (List.mem_of_getElem? hc) with hmem | hmem
    · obtain ⟨b, hb⟩ := List.getElem?_of_mem hmem
      exact hI.replied b reply hb
    · exact hreplies reply hmem
  · exact (hI.request i k hk hne).quiet hw (.of_eq rfl rfl rfl rfl) rfl
  · exact (hI.response i n k c hk).quiet hw (.of_eq rfl rfl rfl rfl) rfl
  · obtain ⟨inv, hinv, hhanded⟩ := hI.invoked n k hn
    exact ⟨inv, hinv, hhanded.mono hw⟩
  · obtain ⟨call, hcall, hid⟩ := hI.pending id k hk
    exact ⟨call, hw.calls k call hcall, hid⟩
  · obtain ⟨n, c, reply, h1, h2, h3, h4⟩ := hI.resolved k response hk (hw.properIds hids)
    exact ⟨n, c, reply, hw.replies c reply h1, h2, h3, h4.mono hw⟩

/-- What a launch adds. -/
theorem launch_cases {e : Launch} {p : Program bus Unit} (h : D.launch e w = some (t, p, w')) :
    (∃ call, e = .dispatch call ∧ t = .dispatch w.calls.length ∧
      p = D.dispatch_program w.calls.length call ∧
        w' = { w with calls := w.calls ++ [call] }) ∨
      (e = .watcher ∧ t = .watcher ∧ p = D.watcher_pass ∧ w' = w) ∨
      (∃ l, e = .receive l ∧ t = .receive l ∧ p = D.receive_pass l ∧ w' = w) ∨
      ∃ reply inv, e = .respond reply ∧ w.invocations[reply.invocation]? = some inv ∧
        t = .respond w.replies.length ∧ p = D.respond_program inv reply ∧
        w' = { w with replies := w.replies ++ [reply] } := by
  cases e with
  | dispatch call =>
      obtain ⟨rfl, rfl, rfl⟩ := h
      exact .inl ⟨call, rfl, rfl, rfl, rfl⟩
  | watcher =>
      obtain ⟨rfl, rfl, rfl⟩ := h
      exact .inr (.inl ⟨rfl, rfl, rfl, rfl⟩)
  | receive l =>
      obtain ⟨rfl, rfl, rfl⟩ := h
      exact .inr (.inr (.inl ⟨l, rfl, rfl, rfl, rfl⟩))
  | respond reply =>
      obtain ⟨inv, hinv, ⟨⟩⟩ := Option.map_eq_some_iff.mp h
      exact .inr (.inr (.inr ⟨reply, inv, rfl, hinv, rfl, rfl, rfl⟩))

/-- The ledger after a `send_response` call has begun. -/
theorem ledger_of_reply (reply : Reply) : World.ledger { w with replies := w.replies ++ [reply] } =
    { w.ledger with invocation_of :=
        Function.update w.ledger.invocation_of w.replies.length (some reply.invocation) } := by
  simp only [World.ledger, getElem?_append_singleton]

/-- **A launch keeps the invariant.** -/
theorem launch_invariant (hI : D.Invariant w) {e : Launch} {p : Program bus Unit}
    (h : D.launch e w = some (t, p, w')) : D.Invariant w' := by
  rcases launch_cases h with ⟨call, -, -, -, rfl⟩ | ⟨-, -, -, rfl⟩ | ⟨l, -, -, -, rfl⟩ |
    ⟨reply, inv, -, hinv, -, -, rfl⟩
  · have hledger : World.ledger { w with calls := w.calls ++ [call] } = w.ledger := rfl
    have happ := hI.append [call] [] (by simpa [hledger] using hI.ledger) nofun
    simpa using happ
  · exact hI
  · exact hI
  · have hledger : World.ledger { w with replies := w.replies ++ [reply] } |>.Invariant := by
      rw [ledger_of_reply]
      refine hI.ledger.reply _ ?_
        (hI.phase_of_unknown (t := .respond w.replies.length) (lt_irrefl _))
      simp [World.ledger]
    have happ := hI.append [] [reply] (by simpa using hledger) fun q hq => by
      obtain rfl := List.mem_singleton.mp hq
      exact (List.getElem?_eq_some_iff.mp hinv).1
    simpa using happ

end Steps

/-- **The contract of a bus.** -/
def protocol (hD : D.Sound) : Contract D.system where
  invariant := D.Invariant
  legal t a w := w.Knows t ∧ D.Legal w t a
  admits e w := Admits w e
  idle := D.Idle
  legal_invariant hI hl hx := legal_invariant hD hI hl.1 hl.2 hx
  launch_invariant hI _ _ h := launch_invariant hI h

end Deployment
end SlotBus
