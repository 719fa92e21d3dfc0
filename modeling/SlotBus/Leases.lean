import SlotBus.Preservation

/-!
# What the threads of a bus may rely on

The other threads cannot take away what the protocol gives to a thread: the slot it holds, and the
half it may read or write.

* `interferes_cases` — a step of another thread;
* `dispatch_tenancy`, `respond_tenancy` — the writers have their halves to themselves;
* `slot_lease` — a thread whose slot nobody else passes on may read it.
-/

namespace SlotBus

open ByteMemory AtomicProgram

namespace Deployment

variable {D : Deployment} {hD : D.Sound} {t : Thread} {w w' : World}

/-- A step of another thread: a legal action, or a launch, which changes neither the mapping nor the
history. -/
theorem interferes_cases (h : (D.protocol hD).Interferes t w w') :
    D.Invariant w ∧ D.Invariant w' ∧
      ((∃ u a c r, u ≠ t ∧ D.Legal w u a ∧ (machine D.target).exec u a c w = some (r, w')) ∨
        ∃ u e p, u ≠ t ∧ Admits w e ∧ D.launch e w = some (u, p, w')) := by
  have hI' : D.Invariant w' := h.invariant
  cases h with
  | action hne hinv hlegal hx => exact ⟨hinv, hI', .inl ⟨_, _, _, _, hne, hlegal.2, hx⟩⟩
  | launch hne hinv hadmits hidle hx => exact ⟨hinv, hI', .inr ⟨_, _, _, hne, hadmits, hx⟩⟩

/-- A launch only adds calls and replies. -/
theorem launch_eq {u : Thread} {e : Launch} {p : Program bus Unit}
    (h : D.launch e w = some (u, p, w')) :
    ∃ calls replies,
      w' = { w with calls := w.calls ++ calls, replies := w.replies ++ replies } := by
  rcases launch_cases h with ⟨call, -, -, -, rfl⟩ | ⟨-, -, -, rfl⟩ | ⟨l, -, -, -, rfl⟩ |
    ⟨reply, inv, -, -, -, -, rfl⟩
  · exact ⟨[call], [], by simp⟩
  · exact ⟨[], [], by simp⟩
  · exact ⟨[], [], by simp⟩
  · exact ⟨[], [reply], by simp⟩

theorem interferes_history (h : (D.protocol hD).Interferes t w w') :
    history t w'.log = history t w.log := by
  obtain ⟨-, -, ⟨u, a, c, r, hne, -, hx⟩ | ⟨u, e, p, -, -, hx⟩⟩ := interferes_cases h
  · rw [(exec_changes hx).log, history_cons_of_ne hne]
  · obtain ⟨calls, replies, rfl⟩ := launch_eq hx
    rfl

theorem interferes_phase (h : (D.protocol hD).Interferes t w w') :
    phase w'.log t = phase w.log t := by
  rw [phase, phase, interferes_history h]

theorem interferes_extends (h : (D.protocol hD).Interferes t w w') : w.Extends w' := by
  obtain ⟨hI, -, ⟨u, a, c, r, -, -, hx⟩ | ⟨u, e, p, -, -, hx⟩⟩ := interferes_cases h
  · exact hI.extends hx
  · obtain ⟨calls, replies, rfl⟩ := launch_eq hx
    exact extends_of_append _ _ _

/-- A slot that only `t` passes on stays where it is. -/
theorem interferes_owner (h : (D.protocol hD).Interferes t w w') {i : ℕ}
    (hkept : (owner w.log i).KeptBy t) : owner w'.log i = owner w.log i := by
  obtain ⟨hI, -, ⟨u, a, c, r, hne, hl, hx⟩ | ⟨u, e, p, -, -, hx⟩⟩ := interferes_cases h
  · rcases (hl.move hD hI hx).owner_cases with heq | ⟨j, o, p, -, -, hturn, heq, -⟩ | ⟨l,
      k, j, rfl, hj, -, heq⟩
    · rw [heq]
    · rw [heq]
      refine Function.update_of_ne (fun hij => ?_) _ _
      subst hij
      exact hne (hturn.eq_of_kept hkept)
    · rw [heq]
      refine Function.update_of_ne (fun hij => ?_) _ _
      rw [hij, hj] at hkept
      cases t <;> first | exact hkept.elim | exact hne (congrArg _ hkept)
  · obtain ⟨calls, replies, rfl⟩ := launch_eq hx
    rfl

/-- A `send_response` call that failed stays failed. -/
theorem interferes_failed (h : (D.protocol hD).Interferes t w w') {c : ℕ}
    (hfailed : phase w.log (.respond c) = .failed) : phase w'.log (.respond c) = .failed := by
  obtain ⟨hI, -, ⟨u, a, x, r, hne, hl, hx⟩ | ⟨u, e, p, -, -, hx⟩⟩ := interferes_cases h
  · have hupdate : ∀ p, u ≠ .respond c → Function.update (phase w.log) u p (.respond c) = .failed :=
      fun p hu => by rw [Function.update_of_ne (Ne.symm hu), hfailed]
    cases hl.move hD hI hx with
    | still hledger _ => exact (congrFun (congrArg Ledger.phase hledger) _).trans hfailed
    | @follow p hp hledger _ =>
        refine (congrFun (congrArg Ledger.phase hledger) _).trans (hupdate p ?_)
        rintro rfl
        exact hp.of_failed hfailed
    | @turn i o p _ _ hturn hledger _ _ _ =>
        refine (congrFun (congrArg Ledger.phase hledger) _).trans (hupdate p ?_)
        rintro rfl
        -- it passes a slot on only while it is idle
        have hidle : phase w.log (.respond c) = .idle := by
          cases hturn with
          | answer _ hc | give_up _ hc => exact hc.idle
        rw [hidle] at hfailed
        cases hfailed
    | @invoke l k i _ ht _ _ hledger _ _ _ =>
        subst ht
        exact (congrFun (congrArg Ledger.phase hledger) _).trans (hupdate (.released i) nofun)
  · obtain ⟨calls, replies, rfl⟩ := launch_eq hx
    exact hfailed

/-- No other `send_response` call of the invocation gets in the way. -/
theorem interferes_sole {c n : ℕ} (h : (D.protocol hD).Interferes (.respond c) w w')
    (hsole : w.ledger.Sole c n) : w'.ledger.Sole c n := by
  have hextends := interferes_extends h
  have hreplies : ∀ d m, w.ledger.invocation_of d = some m →
      w'.ledger.invocation_of d = some m := by
    intro d m hd
    obtain ⟨reply, hreply, heq⟩ := Option.map_eq_some_iff.mp hd
    exact Option.map_eq_some_iff.mpr ⟨reply, hextends.replies d reply hreply, heq⟩
  refine ⟨hreplies c n hsole.invocation, (interferes_phase h).trans hsole.idle, fun d hd hn => ?_⟩
  by_cases hold : w.ledger.invocation_of d = some n
  · exact interferes_failed h (hsole.others d hd hold)
  · -- a new reply of the same invocation would not have been admitted
    exfalso
    obtain ⟨hI, -, ⟨u, a, x, r, -, -, hx⟩ | ⟨u, e, p, -, hadmits, hx⟩⟩ := interferes_cases h
    · refine hold ?_
      change w.replies[d]?.map Reply.invocation = some n
      rw [← (exec_changes hx).replies]
      exact hn
    · rcases launch_cases hx with ⟨call, -, -, -, rfl⟩ | ⟨-, -, -, rfl⟩ | ⟨l, -, -, -, rfl⟩ |
        ⟨reply, inv, rfl, -, -, -, rfl⟩
      · exact hold hn
      · exact hold hn
      · exact hold hn
      · rw [ledger_of_reply] at hn
        by_cases hdl : d = w.replies.length
        · simp only [hdl, Function.update_self, Option.some.injEq] at hn
          obtain ⟨earlier, hearlier, heq⟩ := Option.map_eq_some_iff.mp hsole.invocation
          have hidle : phase w.log (.respond c) = .idle := hsole.idle
          rw [hadmits c earlier hearlier (heq.trans hn.symm)] at hidle
          cases hidle
        · simp only [Function.update_of_ne hdl] at hn
          exact hold hn

/-- A handler's slot stays with it. -/
theorem interferes_handling {c n k i : ℕ} (h : (D.protocol hD).Interferes (.respond c) w w')
    (hsole : w.ledger.Sole c n) (hi : owner w.log i = .handling n k) :
    owner w'.log i = .handling n k := by
  obtain ⟨hI, -, ⟨u, a, x, r, hne, hl, hx⟩ | ⟨u, e, p, -, -, hx⟩⟩ := interferes_cases h
  · rcases (hl.move hD hI hx).owner_cases with heq | ⟨j, o, p, -, -, hturn, heq, -⟩ | ⟨l,
      m, j, rfl, hj, -, heq⟩
    · rw [heq, hi]
    · rw [heq, ← hi]
      refine Function.update_of_ne (fun hij => ?_) _ _
      subst hij
      have hi' : w.ledger.owner i = .handling n k := hi
      cases hturn with
      | @answer n' k' c' i ho hc | @give_up n' k' c' i ho hc =>
          rw [hi'] at ho
          obtain ⟨rfl, rfl⟩ := Owner.handling.inj ho
          have hfailed :=
            hsole.others c' (fun heq => hne (congrArg Thread.respond heq)) hc.invocation
          rw [hc.idle] at hfailed
          cases hfailed
      | claim ho | publish ho | withdraw ho | take ho | reject ho | collect ho =>
          rw [hi'] at ho
          cases ho
    · rw [heq, ← hi]
      refine Function.update_of_ne (fun hij => ?_) _ _
      rw [hij, hj] at hi
      cases hi
  · obtain ⟨calls, replies, rfl⟩ := launch_eq hx
    exact hi

/-- A half that no other thread writes is left alone. -/
theorem interferes_quiet (h : (D.protocol hD).Interferes t w w') {d : Direction} {i : ℕ}
    (hi : i < D.num_slots) (htenant : ∀ u, u ≠ t → ¬ Tenant w u d i) :
    (D.half (D.writer d) d i).Quiet D.Faithful D.Tracked False w w' := by
  obtain ⟨hI, -, ⟨u, a, c, r, hne, hl, hx⟩ | ⟨u, e, p, -, -, hx⟩⟩ := interferes_cases h
  · exact quiet_of_legal hD hI hl hx hi fun ht => absurd ht (htenant u hne)
  · obtain ⟨calls, replies, rfl⟩ := launch_eq hx
    exact .of_eq rfl rfl rfl rfl

/-! ### Reading -/

/-- A thread reads a slot that only it passes on, and whose half nobody is writing. -/
def slot_lease (hD : D.Sound) (t : Thread) (region : ShmRegion) (d : Direction) (i : ℕ) (o : Owner)
    (hkept : o.KeptBy t) (hknows : ∀ w : World, owner w.log i = o → D.Invariant w → w.Knows t)
    (hwriter : ∀ (w : World) u, owner w.log i = o → ¬ Tenant w u d i)
    (htable : (D.half region d i).InTable) (hlt : i < D.num_slots)
    (harea : (D.half region d i).area D.Faithful = (D.half (D.writer d) d i).area D.Faithful)
    (hheap : D.Faithful → region.heap_size < 2 ^ 32) :
    Lease (D.protocol hD) t (D.half region d i) where
  holds w := owner w.log i = o
  faithful := D.Faithful
  tracked := D.Tracked
  firm := False
  machine_eq := rfl
  in_table := htable
  sound hf := ⟨htable, hheap hf⟩
  stable w w' h ho := (interferes_owner h (ho ▸ hkept)).trans ho
  history_eq h := interferes_history h
  quiet {w w'} h ho := by
    have hquiet := interferes_quiet h hlt fun u _ => hwriter w u ho
    exact ⟨harea ▸ hquiet.memory, hquiet.names, hquiet.segments, hquiet.log⟩
  read_legal {w a} hI ho ha := ⟨hknows w ho hI, .bystander ha.bystander⟩
  read_keeps {w a c r w'} _ ho ha hx := by
    rw [(exec_changes hx).log, owner_silent ha.bystander.silent.1]
    exact ho

/-! ### Writing -/

/-- Nobody else writes the request half of a slot that a dispatch call holds. -/
theorem tenant_request_unique {k i : ℕ} (h : owner w.log i = .writing k) {u : Thread}
    (hu : Tenant w u .request i) : u = .dispatch k := by
  cases hu with
  | request h' =>
      rw [h] at h'
      obtain rfl := Owner.writing.inj h'
      rfl

/-- Nobody else writes the response half of a slot that a handler holds. -/
theorem tenant_response_unique {n k c i : ℕ} (h : owner w.log i = .handling n k)
    (hsole : w.ledger.Sole c n) {u : Thread} (hu : Tenant w u .response i) : u = .respond c := by
  cases hu with
  | @response n' k' c' i h' hc =>
      rw [h] at h'
      obtain ⟨rfl, rfl⟩ := Owner.handling.inj h'
      by_contra hne
      have hfailed := hsole.others c' (fun heq => hne (congrArg Thread.respond heq)) hc.invocation
      rw [hc.idle] at hfailed
      cases hfailed

/-- **A dispatch call has the request half of its slot to itself.** -/
def dispatch_tenancy (hD : D.Sound) (k i : ℕ) (call : DispatchCall) (hi : i < D.num_slots) :
    Tenancy (D.protocol hD) (.dispatch k) (D.half D.hub_region .request i) where
  holds w := owner w.log i = .writing k ∧ w.calls[k]? = some call
  faithful := D.Faithful
  tracked := D.Tracked
  firm := False
  machine_eq := rfl
  in_table := hD.writer_inTable .request hi
  sound hf := ⟨hD.writer_inTable .request hi, hf.heap_lt⟩
  stable w w' h hw := by
    refine ⟨(interferes_owner h ?_).trans hw.1, (interferes_extends h).calls k call hw.2⟩
    rw [hw.1]
    exact rfl
  history_eq h := interferes_history h
  quiet h hw := interferes_quiet h hi fun u hne hu => hne (tenant_request_unique hw.1 hu)
  read_legal {w a} _ hw ha := ⟨(List.getElem?_eq_some_iff.mp hw.2).1,
    .bystander ha.bystander⟩
  read_keeps {w a c r w'} _ hw ha hx := by
    rw [(exec_changes hx).log, owner_silent ha.bystander.silent.1,
      (exec_changes hx).calls]
    exact hw
  own_legal _ hw ha := ⟨(List.getElem?_eq_some_iff.mp hw.2).1, .own (.request hw.1) ha⟩
  own_keeps _ hw ha hx := by
    rw [(exec_changes hx).log, owner_silent (SlotHalf.own_silent ha).1, (exec_changes hx).calls]
    exact hw

/-- A `send_response` call that may answer the slot's request. -/
structure Responding (i k c : ℕ) (reply : Reply) (w : World) : Prop where
  owner_eq : owner w.log i = .handling reply.invocation k
  sole : w.ledger.Sole c reply.invocation
  reply_eq : w.replies[c]? = some reply

theorem Responding.of_silent {i k c : ℕ} {reply : Reply} {a : Action} {x : Choice} {r : Answer a}
    (h : Responding i k c reply w) (hx : (machine D.target).exec (.respond c) a x w = some (r, w'))
    (ha : a.Silent) (hphase : Entry.advance ⟨.respond c, a, r⟩ .idle = .idle) :
    Responding i k c reply w' := by
  have hledger : w'.ledger = w.ledger := ledger_still hx ha (by
    rw [show phase w.log (.respond c) = .idle from h.sole.idle, hphase])
  refine ⟨(congrFun (congrArg Ledger.owner hledger) i).trans h.owner_eq, hledger ▸ h.sole, ?_⟩
  rw [(exec_changes hx).replies]
  exact h.reply_eq

/-- **A `send_response` call has the response half of its slot to itself.** -/
def respond_tenancy (hD : D.Sound) (c k i : ℕ) (reply : Reply) (hi : i < D.num_slots) :
    Tenancy (D.protocol hD) (.respond c) (D.half D.worker_region .response i) where
  holds := Responding i k c reply
  faithful := D.Faithful
  tracked := D.Tracked
  firm := False
  machine_eq := rfl
  in_table := hD.writer_inTable .response hi
  sound hf := ⟨hD.writer_inTable .response hi, hf.heap_lt_writer .response⟩
  stable w w' h hw := ⟨interferes_handling h hw.sole hw.owner_eq, interferes_sole h hw.sole,
    (interferes_extends h).replies c reply hw.reply_eq⟩
  history_eq h := interferes_history h
  quiet h hw := interferes_quiet (d := .response) h hi
    fun u hne hu => hne (tenant_response_unique hw.owner_eq hw.sole hu)
  read_legal {w a} _ hw ha := ⟨(List.getElem?_eq_some_iff.mp hw.reply_eq).1,
    .bystander ha.bystander⟩
  read_keeps {w a x r w'} _ hw ha hx :=
    hw.of_silent hx ha.bystander.silent.1
      (by cases a <;> first | exact ha.elim | rfl)
  own_legal _ hw ha :=
    ⟨(List.getElem?_eq_some_iff.mp hw.reply_eq).1, .own (.response hw.owner_eq hw.sole) ha⟩
  own_keeps {w a x r w'} _ hw ha hx := hw.of_silent hx (SlotHalf.own_silent ha).1
    (by cases a <;> first | exact ha.elim | rfl)

end Deployment
end SlotBus
