import SlotBus.Foundation.Interleaving

/-!
# Services

A service is called any number of times, and the programs of its calls are interleaved.  What they
do is logged, with the number of the call.

* `Service` — what the actions do, and the program of each call;
* `Service.Reaches` — the sessions that runs reach, with induction over runs (`Reaches.induct`);
* `Reaches.earlier` — the earlier parts of a log;
* `Past` — what has been done of a program, and what is left of it;
* `Reaches.past` — what is logged of a call is the past of its program.
-/

namespace AtomicProgram

variable {S : Signature} {State Choice Call : Type}

structure Service (S : Signature) (State Choice Call : Type) where
  exec : (a : S.Action) → Choice → State → Option (S.Answer a × State)
  program : Call → Program S Unit
  /-- What a call takes from the state when it begins, if it may begin. -/
  accept : Call → State → Option State

/-- An action that was performed for a call. -/
structure Performed (S : Signature) where
  call : ℕ
  action : S.Action
  answer : S.Answer action

/-- The state with the calls that have been made, and what they have done, the latest action
first. -/
structure Session (S : Signature) (State Call : Type) where
  state : State
  calls : List Call
  log : List (Performed S)

/-- What call `k` has done. -/
def deeds (k : ℕ) (log : List (Performed S)) : List (Performed S) := log.filter fun e => e.call = k

theorem deeds_cons_self (k : ℕ) (a : S.Action) (r : S.Answer a) (log : List (Performed S)) :
    deeds k (⟨k, a, r⟩ :: log) = ⟨k, a, r⟩ :: deeds k log := by
  simp [deeds]

theorem deeds_cons_of_ne {j k : ℕ} (h : j ≠ k) (a : S.Action) (r : S.Answer a)
    (log : List (Performed S)) :
    deeds k (⟨j, a, r⟩ :: log) = deeds k log := by
  simp [deeds, h]

theorem mem_deeds {k : ℕ} {e : Performed S} {log : List (Performed S)} :
    e ∈ deeds k log ↔ e ∈ log ∧ e.call = k := by
  simp [deeds]

/-- These deeds of call `k`, the latest first, lead from the program `p` to the program `q`. -/
inductive Past (k : ℕ) (p : Program S Unit) : List (Performed S) → Program S Unit → Prop where
  | start : Past k p [] p
  | act {done : List (Performed S)} {a : S.Action} {rest : S.Answer a → Program S Unit}
      (h : Past k p done (.act a rest)) (r : S.Answer a) : Past k p (⟨k, a, r⟩ :: done) (rest r)

section Past

variable {k : ℕ} {p q : Program S Unit} {done : List (Performed S)}

/-- **The first deed** of a program is its first action. -/
theorem Past.act_cases {a : S.Action} {f : S.Answer a → Program S Unit}
    (h : Past k (.act a f) done q) :
    (done = [] ∧ q = .act a f) ∨ ∃ r later, done = later ++ [⟨k, a, r⟩] ∧ Past k (f r) later q := by
  induction h with
  | start => exact .inl ⟨rfl, rfl⟩
  | act h r ih =>
      obtain ⟨rfl, hq⟩ | ⟨first, later, rfl, hlater⟩ := ih
      · cases hq
        exact .inr ⟨r, [], rfl, .start⟩
      · exact .inr ⟨first, _ :: later, rfl, hlater.act r⟩

/-- A program that is done does nothing. -/
theorem Past.done_cases {v : Unit} (h : Past k (.done v) done q) : done = [] ∧ q = .done v := by
  induction h with
  | start => exact ⟨rfl, rfl⟩
  | act h r ih => cases ih.2

/-- What a program is confined to is all that it does, and what is left of it is confined to the
same. -/
theorem Past.confined {P : S.Action → Prop} (h : Past k p done q) (hp : p.Confined P) :
    (∀ e ∈ done, P e.action) ∧ q.Confined P := by
  induction h with
  | start => exact ⟨fun _ he => absurd he List.not_mem_nil, hp⟩
  | act h r ih =>
      obtain ⟨hdone, hrest⟩ := ih
      refine ⟨fun e he => ?_, hrest.2 r⟩
      rcases List.mem_cons.mp he with rfl | he
      · exact hrest.1
      · exact hdone e he

end Past

namespace Service

variable (V : Service S State Choice Call)

def system : System S ℕ (Session S State Call) Choice Call where
  exec k a c s := (V.exec a c s.state).map fun x => (x.1, ⟨x.2, s.calls, ⟨k, a, x.1⟩ :: s.log⟩)
  launch call s := (V.accept call s.state).map fun u =>
    (s.calls.length, V.program call, ⟨u, s.calls ++ [call], s.log⟩)

/-- Nothing has been called. -/
def opening (u : State) : Configuration S ℕ (Session S State Call) :=
  ⟨⟨u, [], []⟩, fun _ => .done ()⟩

/-- The calls may be made at any time. -/
abbrev anytime : Discipline S ℕ (Session S State Call) Call := .launching fun _ _ => True

/-- What runs from the state `u` reach. -/
def Reaches (u : State) : Configuration S ℕ (Session S State Call) → Prop :=
  Reachable V.system anytime (opening u)

variable {V} {u : State} {σ : Configuration S ℕ (Session S State Call)}

/-- **Induction over runs.** -/
theorem Reaches.induct {P : Configuration S ℕ (Session S State Call) → Prop}
    (hstart : P (opening u)) (haction : ∀ τ k a rest c r v, V.Reaches u τ → P τ →
      τ.program k = .act a rest → V.exec a c τ.state.state = some (r, v) →
      P ⟨⟨v, τ.state.calls, ⟨k, a, r⟩ :: τ.state.log⟩, Function.update τ.program k (rest r)⟩)
    (hcall : ∀ τ call v, V.Reaches u τ → P τ → τ.program τ.state.calls.length = .done () →
      V.accept call τ.state.state = some v →
      P ⟨⟨v, τ.state.calls ++ [call], τ.state.log⟩,
        Function.update τ.program τ.state.calls.length (V.program call)⟩)
    (h : V.Reaches u σ) : P σ := by
  induction h with
  | refl => exact hstart
  | tail hτ hs ih =>
      obtain ⟨k, a, rest, c, r, s', hp, -, hx, rfl⟩ | ⟨call, k, p, s', -, hp, hx, rfl⟩ :=
        step_cases hs
      · obtain ⟨⟨r', v⟩, hexec, heq⟩ := Option.map_eq_some_iff.mp hx
        cases heq
        exact haction _ k a rest c _ v hτ ih hp hexec
      · obtain ⟨v, haccept, heq⟩ := Option.map_eq_some_iff.mp hx
        cases heq
        exact hcall _ call v hτ ih hp haccept

/-- **Every earlier part of the log** was the log of a session that the run has reached. -/
theorem Reaches.earlier (h : V.Reaches u σ) {later earlier : List (Performed S)}
    (hlog : σ.state.log = later ++ earlier) : ∃ τ, V.Reaches u τ ∧ τ.state.log = earlier := by
  induction h generalizing later with
  | refl =>
      obtain ⟨-, rfl⟩ := List.append_eq_nil_iff.mp hlog.symm
      exact ⟨opening u, .refl, rfl⟩
  | tail hτ hs ih =>
      cases later with
      | nil => exact ⟨_, hτ.tail hs, hlog⟩
      | cons e later =>
          obtain ⟨k, a, rest, c, r, s', -, -, hx, rfl⟩ | ⟨call, k, p, s', -, -, hx, rfl⟩ :=
            step_cases hs
          · obtain ⟨x, -, heq⟩ := Option.map_eq_some_iff.mp hx
            cases heq
            exact ih (List.cons.inj hlog).2
          · obtain ⟨v, -, heq⟩ := Option.map_eq_some_iff.mp hx
            cases heq
            exact ih hlog

/-- A call that has not been made has done nothing, and has nothing to do. -/
theorem Reaches.uncalled (h : V.Reaches u σ) {k : ℕ} (hk : σ.state.calls.length ≤ k) :
    deeds k σ.state.log = [] ∧ σ.program k = .done () := by
  refine h.induct (P := fun τ => ∀ k, τ.state.calls.length ≤ k → deeds k τ.state.log = [] ∧
    τ.program k = .done ())
    (fun _ _ => ⟨rfl, rfl⟩) (fun τ j a rest c r v _ ih hp _ k hk => ?_)
    (fun τ call v _ ih _ _ k hk => ?_) k hk
  · obtain ⟨hlog, hdone⟩ := ih k hk
    have hne : k ≠ j := by
      rintro rfl
      rw [hp] at hdone
      cases hdone
    refine ⟨(deeds_cons_of_ne (Ne.symm hne) ..).trans hlog, ?_⟩
    show Function.update τ.program j (rest r) k = .done ()
    rw [Function.update_of_ne hne]
    exact hdone
  · have hlt : τ.state.calls.length < k := by
      have hlength : (τ.state.calls ++ [call]).length ≤ k := hk
      simp only [List.length_append, List.length_cons, List.length_nil] at hlength
      omega
    obtain ⟨hlog, hdone⟩ := ih k hlt.le
    refine ⟨hlog, ?_⟩
    show Function.update τ.program τ.state.calls.length (V.program call) k = .done ()
    rw [Function.update_of_ne hlt.ne']
    exact hdone

/-- **Each call does what its program says**, in that order, and goes on with what is left of it. -/
theorem Reaches.past (h : V.Reaches u σ) {k : ℕ} {call : Call}
    (hk : σ.state.calls[k]? = some call) :
    Past k (V.program call) (deeds k σ.state.log) (σ.program k) := by
  refine h.induct (P := fun τ => ∀ (k : ℕ) call, τ.state.calls[k]? = some call →
      Past k (V.program call) (deeds k τ.state.log) (τ.program k))
    (fun k call hk => by cases hk) (fun τ j a rest c r v _ ih hp _ k call hk => ?_)
    (fun τ new v hτ ih _ _ k call hk => ?_) k call hk
  · show Past k (V.program call) (deeds k (⟨j, a, r⟩ :: τ.state.log))
        (Function.update τ.program j (rest r) k)
    have hpast := ih k call hk
    by_cases hne : k = j
    · subst hne
      rw [hp] at hpast
      rw [deeds_cons_self, Function.update_self]
      exact hpast.act r
    · rw [deeds_cons_of_ne (Ne.symm hne), Function.update_of_ne hne]
      exact hpast
  · show Past k (V.program call) (deeds k τ.state.log)
        (Function.update τ.program τ.state.calls.length (V.program new) k)
    by_cases hnew : k = τ.state.calls.length
    · subst hnew
      have hlast : (τ.state.calls ++ [new])[τ.state.calls.length]? = some call := hk
      rw [List.getElem?_concat_length] at hlast
      cases hlast
      rw [(hτ.uncalled (le_refl _)).1, Function.update_self]
      exact .start
    · have hlt : k < (τ.state.calls ++ [new]).length := (List.getElem?_eq_some_iff.mp hk).1
      simp only [List.length_append, List.length_cons, List.length_nil] at hlt
      have hold : (τ.state.calls ++ [new])[k]? = some call := hk
      rw [List.getElem?_append_left (by omega)] at hold
      rw [Function.update_of_ne hnew]
      exact ih k call hold

/-- What is logged is logged of a call that has been made, as one of its deeds. -/
theorem Reaches.logged (h : V.Reaches u σ) {e : Performed S} (he : e ∈ σ.state.log) :
    ∃ call, σ.state.calls[e.call]? = some call ∧
      Past e.call (V.program call) (deeds e.call σ.state.log) (σ.program e.call) := by
  by_cases hlt : e.call < σ.state.calls.length
  · have hcall := List.getElem?_eq_getElem hlt
    exact ⟨_, hcall, h.past hcall⟩
  · have hnothing := (h.uncalled (Nat.le_of_not_lt hlt)).1
    exact absurd (hnothing ▸ mem_deeds.mpr ⟨he, rfl⟩) List.not_mem_nil

/-- A call that acts has been made, and its program says so. -/
theorem Reaches.acting (h : V.Reaches u σ) {k : ℕ} {a : S.Action}
    {rest : S.Answer a → Program S Unit} (hp : σ.program k = .act a rest) :
    ∃ call, σ.state.calls[k]? = some call ∧
      Past k (V.program call) (deeds k σ.state.log) (.act a rest) := by
  by_cases hlt : k < σ.state.calls.length
  · have hcall := List.getElem?_eq_getElem hlt
    exact ⟨_, hcall, hp ▸ h.past hcall⟩
  · have hdone := (h.uncalled (Nat.le_of_not_lt hlt)).2
    rw [hp] at hdone
    cases hdone

end Service

end AtomicProgram
