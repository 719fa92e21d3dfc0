import SlotBus.Drain
import SlotBus.Foundation.Fairness

/-!
# No slot is forgotten

In a run without end in which every thread that can go on gets its turn, and the watcher and some
receive loop are launched again and again, a slot goes round the circle of its owners.  A thread
that has panicked cannot go on; it never does where every overflow region has a name.

* `Owner.Next` — the steps of the circle; `Reaches.next_owner` — a slot takes no others;
* `pass_leads` — a pass tries every slot, whatever it finds in the others;
* `nothing_left_lying` — **every request that is published is given to a handler or rejected, and
  every answer is collected**;
* `slots_recur` — **if the handlers answer, every slot becomes free again and again**.
-/

namespace SlotBus

open ByteMemory AtomicProgram AtomicProgram.Program

/-! ### The circle -/

/-- How a slot passes from one owner to the next. -/
inductive Owner.Next : Owner → Owner → Prop where
  | claim (k : ℕ) : Next .free (.writing k)
  | publish (k : ℕ) : Next (.writing k) (.ready k)
  | withdraw (k : ℕ) : Next (.writing k) .free
  | take (l k : ℕ) : Next (.ready k) (.reading l k)
  | invoke (l h k : ℕ) : Next (.reading l k) (.handling h k)
  | reject (l k : ℕ) : Next (.reading l k) .free
  | answer (h k c : ℕ) : Next (.handling h k) (.done h k c)
  | give_up (h k : ℕ) : Next (.handling h k) .free
  | collect (h k c : ℕ) : Next (.done h k c) .free

section Steps

variable {D : Deployment} {t : Thread} {a : Action} {w w' : World}

theorem Ledger.Turn.next {L : Ledger} {i : ℕ} {o : Owner} {p : Phase} (h : L.Turn t i o p) :
    (L.owner i).Next o := by
  cases h with
  | claim h => rw [h]; exact .claim _
  | publish h => rw [h]; exact .publish _
  | withdraw h => rw [h]; exact .withdraw _
  | take h => rw [h]; exact .take _ _
  | reject h => rw [h]; exact .reject _ _
  | answer h => rw [h]; exact .answer _ _ _
  | give_up h => rw [h]; exact .give_up _ _
  | collect h => rw [h]; exact .collect _ _ _

theorem Deployment.Move.next_owner (hm : D.Move t a w w') (j : ℕ) :
    owner w'.log j = owner w.log j ∨ (owner w.log j).Next (owner w'.log j) := by
  cases hm with
  | still hledger _ => exact .inl (congrFun (congrArg Ledger.owner hledger) j)
  | follow _ hledger _ => exact .inl (congrFun (congrArg Ledger.owner hledger) j)
  | @turn i o p _ _ h hledger _ _ _ =>
      have howner : owner w'.log j = if j = i then o else owner w.log j :=
        (congrFun (congrArg Ledger.owner hledger) j).trans (Ledger.pass_owner _ _ _ _ _ _)
      rw [howner]
      split
      · rename_i hij
        subst hij
        exact .inr h.next
      · exact .inl rfl
  | @invoke l k i request _ ho _ hledger _ _ _ =>
      have howner :
          owner w'.log j = if j = i then .handling w.invocations.length k else owner w.log j :=
        (congrFun (congrArg Ledger.owner hledger) j).trans
        (Ledger.pass_owner w.ledger t i _ (.released i) j)
      rw [howner]
      split
      · rename_i hij
        subst hij
        rw [ho]
        exact .inr (.invoke _ _ _)
      · exact .inl rfl

end Steps

namespace Deployment

variable {D : Deployment} {σ σ' : Configuration bus Thread World}

/-- **A slot goes round its circle**, and takes no other way. -/
theorem Reaches.next_owner (h : D.Reaches (.launching Admitted) σ)
    (hstep : Step D.system (.launching Admitted) σ σ') (i : ℕ) :
    owner σ'.state.log i = owner σ.state.log i ∨
    (owner σ.state.log i).Next (owner σ'.state.log i) := by
  have hwell := h.wellBehaved fun _ _ he => he
  obtain ⟨t, a, k, c, r, w', hp, -, hx, rfl⟩ | ⟨e, t, p, w', -, -, hx, rfl⟩ := step_cases hstep
  · exact ((hwell.legal hp).2.move h.sound hwell.invariant hx).next_owner i
  · obtain ⟨calls, replies, rfl⟩ := launch_eq hx
    exact .inl rfl

end Deployment

/-! ### What a pass tries -/

/-- Nobody tells a bus to stop. -/
def Unstopped : (a : Action) → Answer a → Prop
  | .running _, r => r = true
  | _, _ => True

/-- A receive loop tries to take what is in the slot. -/
def Takes (i : ℕ) (a : Action) (_ : Answer a) : Prop :=
  a = .compare_exchange i SLOT_READY SLOT_CLAIMED

/-- The watcher tries to collect what is in the slot, or sees that there is nothing to collect. -/
def Looks (i : ℕ) : (a : Action) → Answer a → Prop
  | .load j, (v : ℕ) => j = i ∧ v ≠ SLOT_DONE
  | .compare_exchange j expected new, _ => j = i ∧ expected = SLOT_DONE ∧ new = SLOT_FREE
  | _, _ => False

namespace Deployment

variable {D : Deployment} {i : ℕ}

theorem for_each_leads {B : (a : Action) → Answer a → Prop} {visit : ℕ → Program bus Unit}
    (hvisit : (visit i).Leads Unstopped B) {slots : List ℕ} (hi : i ∈ slots) :
    (for_each visit slots).Leads Unstopped B := by
  induction slots with
  | nil => exact absurd hi List.not_mem_nil
  | cons j rest ih =>
      show (visit j >>= fun _ => for_each visit rest).Leads Unstopped B
      by_cases hij : i = j
      · subst hij
        exact hvisit.bind _
      · exact Leads.of_rest _ fun _ => ih ((List.mem_cons.mp hi).resolve_left hij)

theorem pass_leads {B : (a : Action) → Answer a → Prop} {visit : ℕ → Program bus Unit}
    (hvisit : (visit i).Leads Unstopped B) {n : ℕ} (hi : i < n) (side : Side) (e : NamedEvent) :
    (do if ← running side then
          let _ ← wait e
          for_each visit (List.range n)
        else pure () : Program bus Unit).Leads Unstopped B := by
  intro b hb
  right
  cases b with
  | false => cases (show false = true from hb)
  | true =>
      intro _ _
      exact .inr (for_each_leads hvisit (List.mem_range.mpr hi))

theorem receive_slot_leads (l i : ℕ) : (D.receive_slot l i).Leads Unstopped (Takes i) :=
  fun _ _ => .inl rfl

theorem watch_slot_leads (i : ℕ) : (D.watch_slot i).Leads Unstopped (Looks i) := by
  intro (v : ℕ) _
  by_cases hdone : v = SLOT_DONE
  · right
    show Program.Leads _ _ (if v ≠ SLOT_DONE then _ else _)
    rw [if_neg (not_not_intro hdone)]
    refine Leads.of_rest (read_req_id i) fun req_id => ?_
    refine Leads.of_rest (read_response D.response_codec D.target D.hub_region i D.config).run
      fun result => ?_
    exact fun _ _ => .inl ⟨rfl, rfl, rfl⟩
  · exact .inl ⟨rfl, hdone⟩

/-! ### Fair runs -/

variable {ρ : InfiniteRun D.system (.launching Admitted)}

theorem reaches_run (hstart : D.Reaches (.launching Admitted) (ρ.config 0)) (n : ℕ) :
    D.Reaches (.launching Admitted) (ρ.config n) := by
  obtain ⟨mem, names, segments, next, hsetup, hreach⟩ := hstart
  exact ⟨mem, names, segments, next, hsetup, hreach.trans (InfiniteRun.reachable n)⟩

theorem run_unstopped (hstart : D.Reaches (.launching Admitted) (ρ.config 0)) (n : ℕ)
    (t : Thread) (a : Action) (c : Choice) (r : Answer a) (w : World)
    (hx : D.system.exec t a c (ρ.config n).state = some (r, w)) : Unstopped a r := by
  cases a with
  | running side =>
      obtain ⟨u, hu, rfl⟩ := exec_iff.mp hx
      obtain ⟨rfl, rfl⟩ := Prod.mk.inj (Option.some.inj hu)
      exact (reaches_run hstart n).running side
  | _ => trivial

/-- What slot `i` has for an owner. -/
abbrev OwnedBy (i : ℕ) (o : Owner) (σ : Configuration bus Thread World) : Prop :=
  owner σ.state.log i = o

/-- An owner that does not stay for ever is followed by the next one. -/
theorem leads_on (hstart : D.Reaches (.launching Admitted) (ρ.config 0)) {o : Owner}
    (hends : ∀ n, OwnedBy i o (ρ.config n) → ∃ m, n ≤ m ∧ ¬OwnedBy i o (ρ.config m)) :
    ρ.LeadsTo (OwnedBy i o) fun σ => o.Next (owner σ.state.log i) := by
  refine InfiniteRun.LeadsTo.of_unless (fun n hn => ?_) hends
  have hnext := (reaches_run hstart n).next_owner (InfiniteRun.step n) i
  rw [show owner (ρ.config n).state.log i = o from hn] at hnext
  exact hnext

/-- A thread that is under way ends. -/
theorem run_completes (hstart : D.Reaches (.launching Admitted) (ρ.config 0)) (hfair : ρ.Fair)
    (hnames : D.Nameable) (t : Thread) (n : ℕ) : ∃ m, n ≤ m ∧ (ρ.config m).program t = .done () :=
  hfair.eventually_done ((((reaches_run hstart n).goes hnames).2 t).mono fun _ =>
    enables_of_ne_panic)

/-- A dispatch call under way publishes its slot or gives it back. -/
theorem writing_leads (hstart : D.Reaches (.launching Admitted) (ρ.config 0)) (hfair : ρ.Fair)
    (hnames : D.Nameable) (hserializes : D.Serializes) (k : ℕ) :
    ρ.LeadsTo (OwnedBy i (.writing k)) fun σ => OwnedBy i (.ready k) σ ∨ OwnedBy i .free σ := by
  refine (leads_on hstart fun n _ => ?_).trans (.of_imp fun σ hσ => ?_)
  · obtain ⟨m, hm, hdone⟩ := run_completes hstart hfair hnames (.dispatch k) n
    have hwell := (reaches_run hstart m).wellBehaved fun _ _ he => he
    have hidle := hwell.idle hdone
    exact ⟨m, hm, fun ho => hidle hserializes i ((hwell.invariant.ledger.writing i k).mp ho)⟩
  · generalize ho : owner σ.state.log i = o at hσ
    cases hσ with
    | publish => exact .inl ho
    | withdraw => exact .inr ho

/-- A request that is published is taken by some receive loop. -/
theorem ready_leads (hstart : D.Reaches (.launching Admitted) (ρ.config 0)) {l : ℕ}
    (hloop : ρ.Relaunches (.receive l)) (k : ℕ) :
    ρ.LeadsTo (OwnedBy i (.ready k)) fun σ => ∃ l, OwnedBy i (.reading l k) σ := by
  refine (leads_on hstart fun n hn => ?_).trans (.of_imp fun σ hσ => ?_)
  · have hrange : i < D.num_slots := by
      have hI := ((reaches_run hstart n).wellBehaved fun _ _ he => he).invariant
      exact hI.range i (by rw [show owner (ρ.config n).state.log i = .ready k from hn]; exact nofun)
    have hleads : ∀ e w p w', D.system.launch e w = some (.receive l, p, w') →
        p.Leads Unstopped (Takes i) := by
      intro e w p w' hl
      rcases launch_cases hl with ⟨call, -, ht, -⟩ | ⟨-, ht, -⟩ | ⟨l', -, ht, rfl,
        -⟩ | ⟨reply, inv, -, -, ht, -⟩
      · cases ht
      · cases ht
      · exact pass_leads (receive_slot_leads l' i)
          ((reaches_run hstart n).sound.num_slots_eq ▸ hrange : i < D.worker_region.num_slots) _ _
      · cases ht
    obtain ⟨m, hm, a, c, r, w', hx, hstate, htakes⟩ := hloop.again (run_unstopped hstart) hleads n
    cases (show a = .compare_exchange i SLOT_READY SLOT_CLAIMED from htakes)
    refine ⟨m + 1, by omega, fun ho => ?_⟩
    have hcleared : Cleared SLOT_READY (insert i ∅) w' :=
      Cleared.compare_exchange (by decide) hx fun j hj => hj.elim
    have hstatus := (reaches_run hstart (m + 1)).status hrange
    rw [hstate] at hstatus
    refine hcleared i (.inl rfl) (hstatus.trans ?_)
    rw [← hstate, show owner (ρ.config (m + 1)).state.log i = .ready k from ho]
    rfl
  · generalize ho : owner σ.state.log i = o at hσ
    cases hσ with
    | take l => exact ⟨l, ho⟩

/-- A receive loop under way gives what it has taken to a handler, or rejects it. -/
theorem reading_leads (hstart : D.Reaches (.launching Admitted) (ρ.config 0)) (hfair : ρ.Fair)
    (hnames : D.Nameable) (l k : ℕ) :
    ρ.LeadsTo (OwnedBy i (.reading l k)) fun σ => (∃ h, OwnedBy i (.handling h k) σ) ∨
      OwnedBy i .free σ := by
  refine (leads_on hstart fun n _ => ?_).trans (.of_imp fun σ hσ => ?_)
  · obtain ⟨m, hm, hdone⟩ := run_completes hstart hfair hnames (.receive l) n
    have hwell := (reaches_run hstart m).wellBehaved fun _ _ he => he
    have hidle := hwell.idle hdone
    refine ⟨m, hm, fun ho => hidle i ((hwell.invariant.ledger.reading i l).mp ?_)⟩
    show (owner (ρ.config m).state.log i).loop = some l
    rw [show owner (ρ.config m).state.log i = .reading l k from ho]
    rfl
  · generalize ho : owner σ.state.log i = o at hσ
    cases hσ with
    | invoke _ h => exact .inl ⟨h, ho⟩
    | reject => exact .inr ho

/-- An answer is collected. -/
theorem done_leads (hstart : D.Reaches (.launching Admitted) (ρ.config 0))
    (hwatcher : ρ.Relaunches .watcher) (h k c : ℕ) :
    ρ.LeadsTo (OwnedBy i (.done h k c)) (OwnedBy i .free) := by
  refine (leads_on hstart fun n hn => ?_).trans (.of_imp fun σ hσ => ?_)
  · have hrange : i < D.num_slots := by
      have hI := ((reaches_run hstart n).wellBehaved fun _ _ he => he).invariant
      exact hI.range i
        (by rw [show owner (ρ.config n).state.log i = .done h k c from hn]; exact nofun)
    have hleads : ∀ e w p w', D.system.launch e w = some (.watcher, p, w') →
        p.Leads Unstopped (Looks i) := by
      intro e w p w' hl
      rcases launch_cases hl with ⟨call, -, ht, -⟩ | ⟨-, -, rfl, -⟩ | ⟨l', -, ht,
        -⟩ | ⟨reply, inv, -, -, ht, -⟩
      · cases ht
      · exact pass_leads (watch_slot_leads i) hrange _ _
      · cases ht
      · cases ht
    obtain ⟨m, hm, a, c', r, w', hx, hstate, hlooks⟩ :=
      hwatcher.again (run_unstopped hstart) hleads n
    cases a with
    | load j =>
        obtain ⟨rfl, hne⟩ := hlooks
        obtain ⟨u, hu, rfl⟩ := exec_iff.mp hx
        obtain ⟨rfl, rfl⟩ := Prod.mk.inj (Option.some.inj hu)
        refine ⟨m, hm, fun ho => hne (((reaches_run hstart m).status hrange).trans ?_)⟩
        rw [show owner (ρ.config m).state.log j = .done h k c from ho]
        rfl
    | compare_exchange j expected new =>
        obtain ⟨rfl, rfl, rfl⟩ := hlooks
        refine ⟨m + 1, by omega, fun ho => ?_⟩
        have hcleared : Cleared SLOT_DONE (insert j ∅) w' :=
          Cleared.compare_exchange (by decide) hx fun j hj => hj.elim
        have hstatus := (reaches_run hstart (m + 1)).status hrange
        rw [hstate] at hstatus
        refine hcleared j (.inl rfl) (hstatus.trans ?_)
        rw [← hstate, show owner (ρ.config (m + 1)).state.log j = .done h k c from ho]
        rfl
    | _ => exact hlooks.elim
  · generalize ho : owner σ.state.log i = o at hσ
    cases hσ with
    | collect => exact ho

/-- A request that is published is given to a handler, or rejected. -/
theorem published_taken (hstart : D.Reaches (.launching Admitted) (ρ.config 0)) (hfair : ρ.Fair)
    (hnames : D.Nameable) {l : ℕ} (hloop : ρ.Relaunches (.receive l)) (i k : ℕ) :
    ρ.LeadsTo (OwnedBy i (.ready k)) fun σ => (∃ h, OwnedBy i (.handling h k) σ) ∨
      OwnedBy i .free σ :=
  (ready_leads hstart hloop k).trans (.exists fun l => reading_leads hstart hfair hnames l k)

/-- **What is published is not left lying**: in a fair run in which the watcher and some receive
loop are launched again and again, every request that is published is given to a handler or
rejected, and every answer that is published is collected. -/
theorem nothing_left_lying (hstart : D.Reaches (.launching Admitted) (ρ.config 0)) (hfair : ρ.Fair)
    (hnames : D.Nameable) {l : ℕ} (hloop : ρ.Relaunches (.receive l))
    (hwatcher : ρ.Relaunches .watcher) (i : ℕ) :
    (∀ k, ρ.LeadsTo (OwnedBy i (.ready k)) fun σ => (∃ h, OwnedBy i (.handling h k) σ) ∨
      OwnedBy i .free σ) ∧
      ∀ h k c, ρ.LeadsTo (OwnedBy i (.done h k c)) (OwnedBy i .free) :=
  ⟨published_taken hstart hfair hnames hloop i, done_leads hstart hwatcher⟩

/-! ### The whole circle -/

/-- Every handler invocation answers at some time, with metadata that can be serialized. -/
def Answered (D : Deployment) (ρ : InfiniteRun D.system (.launching Admitted)) : Prop :=
  ∀ n h, h < (ρ.config n).state.invocations.length → ∃ m, n ≤ m ∧ ∃ (c : ℕ) (reply : Reply),
    (ρ.config m).state.replies[c]? = some reply ∧ reply.invocation = h ∧
      ∃ bytes, D.response_codec.to_allocvec ⟨reply.content_type, reply.headers⟩ = .ok bytes

/-- What is recorded of a run is not forgotten. -/
theorem run_extends (hstart : D.Reaches (.launching Admitted) (ρ.config 0))
    {m n : ℕ} (hmn : m ≤ n) :
    (ρ.config m).state.Extends (ρ.config n).state := by
  induction n, hmn using Nat.le_induction with
  | base => exact .refl _
  | succ n _ ih =>
      refine ih.trans ?_
      obtain ⟨t, a, k, c, r, w', -, -, hx, heq⟩ | ⟨e, t, p, w', -, -, hx, heq⟩ :=
        step_cases (InfiniteRun.step (ρ := ρ) n)
      · rw [heq]
        exact Invariant.extends ((reaches_run hstart n).wellBehaved fun _ _ he => he).invariant hx
      · rw [heq]
        obtain ⟨calls, replies, rfl⟩ := launch_eq hx
        refine ⟨fun k call h => ?_, fun _ _ h => h, fun c reply h => ?_, fun _ _ h => h⟩
        · exact (List.getElem?_append_left (List.getElem?_eq_some_iff.mp h).1).trans h
        · exact (List.getElem?_append_left (List.getElem?_eq_some_iff.mp h).1).trans h

/-- A request that is given to a handler is answered, or its slot is given back. -/
theorem handling_leads (hstart : D.Reaches (.launching Admitted) (ρ.config 0)) (hfair : ρ.Fair)
    (hnames : D.Nameable) (hanswered : D.Answered ρ) (h k : ℕ) :
    ρ.LeadsTo (OwnedBy i (.handling h k)) fun σ => (∃ c, OwnedBy i (.done h k c) σ) ∨
      OwnedBy i .free σ := by
  have hinvocation : ∀ n, OwnedBy i (.handling h k) (ρ.config n) →
      (owner (ρ.config n).state.log i).invocation = some h := by
    intro n hn
    rw [show owner (ρ.config n).state.log i = .handling h k from hn]
    rfl
  refine (leads_on hstart fun n hn => ?_).trans (.of_imp fun σ hσ => ?_)
  · have hledger := ((reaches_run hstart n).wellBehaved fun _ _ he => he).invariant.ledger
    obtain ⟨inv, hinv, -⟩ :=
      Option.map_eq_some_iff.mp ((hledger.handling i h).mp (hinvocation n hn)).1
    obtain ⟨m, hm, c, reply, hc, rfl, bytes, hbytes⟩ :=
      hanswered n h (List.getElem?_eq_some_iff.mp hinv).1
    obtain ⟨m', hm', hdone⟩ := run_completes hstart hfair hnames (.respond c) m
    have hc' := (run_extends hstart hm').replies c reply hc
    have hledger' := ((reaches_run hstart m').wellBehaved fun _ _ he => he).invariant.ledger
    refine ⟨m', by omega, fun ho => ?_⟩
    have hwaiting := ((hledger'.handling i reply.invocation).mp (hinvocation m' ho)).2 c
      (congrArg (Option.map Reply.invocation) hc')
    rcases (reaches_run hstart m').respond_over hc' hdone with ⟨-, e, he⟩ | htouched
    · rw [hbytes] at he
      cases he
    · exact not_waiting_of_slot htouched hwaiting
  · generalize ho : owner σ.state.log i = o at hσ
    cases hσ with
    | answer _ _ c => exact .inl ⟨c, ho⟩
    | give_up => exact .inr ho

/-- **Every slot becomes free again and again**, in every fair run in which the watcher and some
receive loop are launched again and again and every handler answers, if requests can be
serialized. -/
theorem slots_recur (hstart : D.Reaches (.launching Admitted) (ρ.config 0)) (hfair : ρ.Fair)
    (hnames : D.Nameable) {l : ℕ} (hloop : ρ.Relaunches (.receive l))
    (hwatcher : ρ.Relaunches .watcher) (hanswered : D.Answered ρ) (hserializes : D.Serializes)
    {i : ℕ} (hi : i < D.num_slots) (n : ℕ) :
    ∃ m, n ≤ m ∧ slot_status (ρ.config m).state.mem i = SLOT_FREE := by
  have hdone : ∀ h k c, ρ.LeadsTo (OwnedBy i (.done h k c)) (OwnedBy i .free) :=
    done_leads hstart hwatcher
  have hhandling : ∀ h k, ρ.LeadsTo (OwnedBy i (.handling h k)) (OwnedBy i .free) := fun h k =>
    (handling_leads hstart hfair hnames hanswered h k).trans
    (.or (.exists fun c => hdone h k c) (.of_imp fun _ hσ => hσ))
  have hready : ∀ k, ρ.LeadsTo (OwnedBy i (.ready k)) (OwnedBy i .free) := fun k =>
    (published_taken hstart hfair hnames hloop i k).trans
    (.or (.exists fun h => hhandling h k) (.of_imp fun _ hσ => hσ))
  have hreading : ∀ l k, ρ.LeadsTo (OwnedBy i (.reading l k)) (OwnedBy i .free) := fun l k =>
    (reading_leads hstart hfair hnames l k).trans
    (.or (.exists fun h => hhandling h k) (.of_imp fun _ hσ => hσ))
  have hwriting : ∀ k, ρ.LeadsTo (OwnedBy i (.writing k)) (OwnedBy i .free) := fun k =>
    (writing_leads hstart hfair hnames hserializes k).trans
    (.or (hready k) (.of_imp fun _ hσ => hσ))
  have hfree : ∃ m, n ≤ m ∧ OwnedBy i .free (ρ.config m) := by
    cases ho : owner (ρ.config n).state.log i with
    | free => exact ⟨n, le_rfl, ho⟩
    | writing k => exact hwriting k n ho
    | ready k => exact hready k n ho
    | reading l k => exact hreading l k n ho
    | handling h k => exact hhandling h k n ho
    | done h k c => exact hdone h k c n ho
  obtain ⟨m, hm, ho⟩ := hfree
  refine ⟨m, hm, ((reaches_run hstart m).status hi).trans ?_⟩
  rw [show owner (ρ.config m).state.log i = .free from ho]
  rfl

end Deployment

/-! ### A small fair run -/

/-- A wait that times out. -/
def times_out : Choice := ⟨true, ""⟩

/-- The watcher and the receive loop look at the small bus, and nobody signals them. -/
def idle_round : List (Move Thread Choice Launch) :=
  [.launch .watcher, .run .watcher times_out, .run .watcher times_out, .run .watcher times_out,
    .launch (.receive 0), .run (.receive 0) times_out, .run (.receive 0) times_out,
      .run (.receive 0) times_out]

/-- Nothing happens on the small bus. -/
structure SmallIdle (σ : Configuration bus Thread World) : Prop where
  quiet : σ.Quiet
  running : ∀ side, σ.state.is_running side = true
  free : slot_status σ.state.mem 0 = SLOT_FREE
  answered : ∀ h < σ.state.invocations.length, ∃ (c : ℕ) (reply : Reply),
    σ.state.replies[c]? = some reply ∧
    reply.invocation = h

/-- The world after an action that only looks. -/
def World.seen (w : World) (t : Thread) (a : Action) (r : Answer a) : World :=
  { w with log := ⟨t, a, r⟩ :: w.log }

section Idling

open Deployment InfiniteRun

variable {σ : Configuration bus Thread World}

theorem watcher_idles (h : SmallIdle σ) : ∃ σ', SmallIdle σ' ∧ ∀ ms,
    small_total_bus.system.play (.launching Admitted) (.launch .watcher ::
        .run .watcher times_out :: .run .watcher times_out :: .run .watcher times_out :: ms) σ =
      small_total_bus.system.play (.launching Admitted) ms σ' := by
  have hrun : small_total_bus.system.exec .watcher (.running .hub) times_out σ.state =
      some (true, σ.state.seen .watcher (.running .hub) true) := by
    rw [← h.running .hub]
    rfl
  have hstatus : slot_status σ.state.mem 0 ≠ SLOT_DONE := by
    rw [h.free]
    decide
  have hidle : Function.update σ.program .watcher (.done ()) = σ.program := by
    rw [← h.quiet .watcher]
    exact Function.update_eq_self _ _
  refine ⟨⟨((σ.state.seen .watcher (.running .hub) true).seen .watcher (.wait .response) false).seen
    .watcher (.load 0)
    (slot_status σ.state.mem 0), σ.program⟩, ⟨h.quiet, h.running, h.free, h.answered⟩, fun ms => ?_⟩
  refine (play_launch trivial rfl (h.quiet _)).trans <| (play_run hrun).trans <|
    (play_run rfl).trans <|
    (play_run rfl).trans ?_
  refine congrArg (fun programs => System.play _ _ ms ⟨_, programs⟩) (Eq.trans ?_ hidle)
  refine congrArg (Function.update σ.program _) ?_
  exact congrArg (fun p => Program.bind p _) (if_pos hstatus)

theorem receive_idles (h : SmallIdle σ) : ∃ σ', SmallIdle σ' ∧ ∀ ms,
    small_total_bus.system.play (.launching Admitted) (.launch (.receive 0) ::
        .run (.receive 0) times_out :: .run (.receive 0) times_out ::
          .run (.receive 0) times_out :: ms) σ =
      small_total_bus.system.play (.launching Admitted) ms σ' := by
  have hrun : small_total_bus.system.exec (.receive 0) (.running (.worker 0)) times_out σ.state =
      some (true, σ.state.seen (.receive 0) (.running (.worker 0)) true) := by
    rw [← h.running (.worker 0)]
    rfl
  have hstatus : slot_status σ.state.mem 0 ≠ SLOT_READY := by
    rw [h.free]
    decide
  have hfails :
      small_total_bus.system.exec (.receive 0)
      (.compare_exchange 0 SLOT_READY SLOT_CLAIMED) times_out
      ((σ.state.seen (.receive 0) (.running (.worker 0)) true).seen (.receive 0)
      (.wait .request) false) =
      some (false, ((σ.state.seen (.receive 0) (.running (.worker 0)) true).seen
        (.receive 0) (.wait .request) false).seen (.receive 0)
        (.compare_exchange 0 SLOT_READY SLOT_CLAIMED) false) :=
    exec_iff.mpr ⟨_, if_neg hstatus, rfl⟩
  have hidle : Function.update σ.program (.receive 0) (.done ()) = σ.program := by
    rw [← h.quiet (.receive 0)]
    exact Function.update_eq_self _ _
  refine ⟨⟨((σ.state.seen (.receive 0) (.running (.worker 0)) true).seen (.receive 0)
    (.wait .request) false).seen
    (.receive 0) (.compare_exchange 0 SLOT_READY SLOT_CLAIMED) false, σ.program⟩,
    ⟨h.quiet, h.running, h.free, h.answered⟩, fun ms => ?_⟩
  refine (play_launch trivial rfl (h.quiet _)).trans <| (play_run hrun).trans <|
    (play_run rfl).trans <|
    (play_run hfails).trans ?_
  exact congrArg (fun programs => System.play _ _ ms ⟨_, programs⟩) hidle

/-- An idle bus stays idle. -/
theorem idle_round_plays (h : SmallIdle σ) :
    ∃ σ', small_total_bus.system.play (.launching Admitted) idle_round σ = some σ' ∧
      SmallIdle σ' := by
  obtain ⟨τ, hτ, hfirst⟩ := watcher_idles h
  obtain ⟨υ, hυ, hsecond⟩ := receive_idles hτ
  exact ⟨υ, (hfirst _).trans (hsecond []), hυ⟩

end Idling

open Deployment in
/-- Whatever the small bus is in the middle of, it can go on fairly for ever. -/
theorem small_fair_run {σ : Configuration bus Thread World}
    (h : small_total_bus.Reaches (.launching Admitted) σ) :
    ∃ ρ : InfiniteRun small_total_bus.system (.launching Admitted), ρ.config 0 = σ ∧ ρ.Fair ∧
      ρ.Relaunches (.receive 0) ∧ ρ.Relaunches .watcher ∧ small_total_bus.Answered ρ := by
  obtain ⟨τ, hreach, hquiet, hfree⟩ :=
    bus_drains (nameable_of_ne_macos (by decide)) (fun _ => ⟨_, rfl⟩)
    ⟨small_response, _, rfl⟩ h
  have hτ := h.finish hreach
  have hidle : SmallIdle τ := by
    refine ⟨hquiet, hτ.running, hfree 0 (by decide), fun n hn => ?_⟩
    have hI := (hτ.wellBehaved fun _ _ he => he).invariant
    obtain ⟨inv, hinv⟩ : ∃ inv, τ.state.invocations[n]? = some inv :=
      ⟨_, List.getElem?_eq_getElem hn⟩
    have hnot : ¬ ∀ c, τ.state.ledger.invocation_of c = some n →
        (τ.state.ledger.phase (.respond c)).Waiting := by
      intro hall
      have ho : (owner τ.state.log inv.slot).invocation = some n :=
        (hI.ledger.handling inv.slot n).mpr ⟨congrArg (Option.map Invocation.slot) hinv, hall⟩
      have hrange : inv.slot < 1 := hI.range inv.slot fun hnone => by
        rw [hnone] at ho
        cases ho
      have hstatus := hτ.status (i := inv.slot) hrange
      rw [hfree inv.slot hrange] at hstatus
      generalize owner τ.state.log inv.slot = o at ho hstatus
      cases o with
      | handling => cases hstatus
      | _ => cases ho
    push Not at hnot
    obtain ⟨c, hc, -⟩ := hnot
    obtain ⟨reply, hreply, heq⟩ := Option.map_eq_some_iff.mp hc
    exact ⟨c, reply, hreply, heq⟩
  obtain ⟨ρ, hstart, hidles, hmove⟩ :=
    InfiniteRun.exists_of_rounds (by decide) (fun _ => idle_round_plays) hidle
  rw [← hstart] at hreach
  obtain ⟨ρ', hstart', d, hlater⟩ := InfiniteRun.exists_after
    (hreach.mono (fun _ _ _ _ => trivial) fun _ _ =>
      And.left : Reachable _ (.launching Admitted) σ (ρ.config 0))
  -- a round of the idle bus after the `n`-th step
  have hround : ∀ n, n ≤ n * idle_round.length + d := fun n =>
    (Nat.le_mul_of_pos_right n (by decide)).trans (Nat.le_add_right _ _)
  have hidle' : ∀ n, SmallIdle (ρ'.config (n * idle_round.length + d)) := by
    intro n
    rw [(hlater _).1]
    exact hidles n
  refine ⟨ρ', hstart', InfiniteRun.fair_of_quiet fun n => ⟨_, hround n, (hidle' n).quiet⟩,
    fun n => ?_, fun n => ?_,
    fun n k hk => ?_⟩
  · refine ⟨n * idle_round.length + 4 + d, (hround n).trans (by omega), .receive 0, _, _, ?_, rfl⟩
    have hmod : (n * idle_round.length + 4) % idle_round.length = 4 :=
      Nat.mul_add_mod_self_right n idle_round.length 4
    rw [(hlater _).2, hmove, List.get_eq_getElem]
    simp only [hmod]
    rfl
  · refine ⟨n * idle_round.length + d, hround n, .watcher, _, _, ?_, rfl⟩
    have hmod : (n * idle_round.length) % idle_round.length = 0 := Nat.mul_mod_left _ _
    rw [(hlater _).2, hmove, List.get_eq_getElem]
    simp only [hmod]
    rfl
  · obtain ⟨inv, hinv⟩ : ∃ inv, (ρ'.config n).state.invocations[k]? = some inv :=
      ⟨_, List.getElem?_eq_getElem hk⟩
    have hinv' := (run_extends (hstart' ▸ h) (hround n)).invocations k inv hinv
    obtain ⟨c, reply, hc, heq⟩ := (hidle' n).answered k (List.getElem?_eq_some_iff.mp hinv').1
    exact ⟨_, hround n, c, reply, hc, heq, _, rfl⟩

namespace Deployment

/-- A request that waits in its slot. -/
theorem nothing_left_lying_small : ∃ ρ :
    InfiniteRun small_total_bus.system (.launching Admitted), ρ.Fair ∧
    OwnedBy 0 (.ready 0) (ρ.config 0) ∧
    ∃ m, (∃ h, OwnedBy 0 (.handling h 0) (ρ.config m)) ∨ OwnedBy 0 .free (ρ.config m) := by
  have hrun : (small_total_bus.system.play (.launching Admitted)
      ([.launch (.dispatch (small_call "a" [7]))] ++ small_steps (.dispatch 0) 16)
      (Start small_start)).map
      (fun σ => owner σ.state.log 0) = some (.ready 0) := by decide +kernel
  obtain ⟨σ, hplay, ho⟩ := Option.map_eq_some_iff.mp hrun
  have hσ : small_total_bus.Reaches (.launching Admitted) σ := small_bus_reaches hplay
  obtain ⟨ρ, rfl, hfair, hloop, hwatcher, -⟩ := small_fair_run hσ
  obtain ⟨m, -, htaken⟩ :=
    (nothing_left_lying hσ hfair (nameable_of_ne_macos (by decide)) hloop hwatcher 0).1 0 0 ho
  exact ⟨ρ, hfair, ho, m, htaken⟩

/-- The slot of that request becomes free. -/
theorem slots_recur_small :
    ∃ (ρ : InfiniteRun small_total_bus.system (.launching Admitted)) (m : ℕ), ρ.Fair ∧
    slot_status (ρ.config 0).state.mem 0 = SLOT_READY ∧
      slot_status (ρ.config m).state.mem 0 = SLOT_FREE := by
  have hrun : (small_total_bus.system.play (.launching Admitted)
      ([.launch (.dispatch (small_call "a" [7]))] ++ small_steps (.dispatch 0) 16)
      (Start small_start)).map
      (fun σ => slot_status σ.state.mem 0) = some SLOT_READY := by decide +kernel
  obtain ⟨σ, hplay, hready⟩ := Option.map_eq_some_iff.mp hrun
  have hσ : small_total_bus.Reaches (.launching Admitted) σ := small_bus_reaches hplay
  obtain ⟨ρ, rfl, hfair, hloop, hwatcher, hanswered⟩ := small_fair_run hσ
  obtain ⟨m, -, hfree⟩ :=
    slots_recur hσ hfair (nameable_of_ne_macos (by decide)) hloop hwatcher hanswered
    (fun _ => ⟨_, rfl⟩) (i := 0) (by decide) 0
  exact ⟨ρ, m, hfair, hready, hfree⟩

end Deployment

end SlotBus
