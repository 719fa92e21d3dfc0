import SlotBus.Foundation.AtomicProgram

/-!
# Interleaved execution and rely/guarantee reasoning

A `Configuration` gives every thread its remaining program.  A step either lets one thread perform
its next action or launches a new program on an idle thread; a `Discipline` says which of these
steps a run may take.

The proof rules are those of rely/guarantee reasoning, with the assertions closed under interference
once and for all:

* `Contract` — an invariant, the actions each thread may perform in a state (`legal`), and the
  proofs that legal actions and launches keep the invariant;
* `Safe C t p Q s` — from `s`, whatever the other threads legally do in between, every action `p`
  performs is legal, and `Q` holds when it is done;
* `Safe.bind`, `Safe.act`, `Safe.stable` — the rules for building such proofs along the program;
* `reachable_wellBehaved` — **soundness**: if every program ever launched is safe, the invariant
  holds and every thread is safe in each reachable configuration.
-/

namespace AtomicProgram

variable {S : Signature} {Thread State Choice Launch α β : Type}

/-- A machine whose threads can be given new programs by the environment. -/
structure System (S : Signature) (Thread State Choice Launch : Type) extends
    Machine S Thread State Choice where
  launch : Launch → State → Option (Thread × Program S Unit × State)

/-- A state together with what every thread still has to do. -/
structure Configuration (S : Signature) (Thread State : Type) where
  state : State
  program : Thread → Program S Unit

/-- One scheduling decision. -/
inductive Move (Thread Choice Launch : Type) where
  | run (t : Thread) (c : Choice)
  | launch (e : Launch)

/-- The configuration after one scheduling decision, if it is possible. -/
def System.next [DecidableEq Thread] (M : System S Thread State Choice Launch) :
    Move Thread Choice Launch → Configuration S Thread State → Option (Configuration S Thread State)
  | .run t c, σ =>
      match σ.program t with
      | .done _ => none
      | .act a k =>
          (M.exec t a c σ.state).map fun x => ⟨x.2, Function.update σ.program t (k x.1)⟩
  | .launch e, σ =>
      (M.launch e σ.state).bind fun x =>
        match σ.program x.1 with
        | .done _ => some ⟨x.2.2, Function.update σ.program x.1 x.2.1⟩
        | .act _ _ => none

/-- Which steps a run takes: the actions a thread performs, and the launches. -/
structure Discipline (S : Signature) (Thread State Launch : Type) where
  action : Thread → S.Action → State → Prop
  launch : Launch → State → Prop

/-- The runs in which the threads may do what they like, and only the launches are limited. -/
def Discipline.launching (P : Launch → State → Prop) : Discipline S Thread State Launch where
  action _ _ _ := True
  launch := P

instance (P : Launch → State → Prop) (t : Thread) (a : S.Action) (s : State) :
    Decidable ((Discipline.launching P : Discipline S Thread State Launch).action t a s) :=
      .isTrue trivial

instance (P : Launch → State → Prop) [∀ e s, Decidable (P e s)] (e : Launch) (s : State) :
    Decidable ((Discipline.launching P : Discipline S Thread State Launch).launch e s) :=
  inferInstanceAs (Decidable (P e s))

/-- The step a scheduling decision stands for is one that `D` takes. -/
def Discipline.Takes (D : Discipline S Thread State Launch) (σ : Configuration S Thread State) :
    Move Thread Choice Launch → Prop
  | .run t _ => ∀ a k, σ.program t = .act a k → D.action t a σ.state
  | .launch e => D.launch e σ.state

section Execution

variable [DecidableEq Thread]

/-- One step of the interleaved execution. -/
def Step (M : System S Thread State Choice Launch) (D : Discipline S Thread State Launch)
    (σ σ' : Configuration S Thread State) : Prop :=
  ∃ m, D.Takes σ m ∧ M.next m σ = some σ'

/-- The configurations that runs following `D` reach. -/
def Reachable (M : System S Thread State Choice Launch) (D : Discipline S Thread State Launch)
    (init : Configuration S Thread State) : Configuration S Thread State → Prop :=
  Relation.ReflTransGen (Step M D) init

/-- **What a step can do**: a thread performs its next action, or an idle thread is launched. -/
theorem step_cases {M : System S Thread State Choice Launch} {D : Discipline S Thread State Launch}
    {σ σ' : Configuration S Thread State} (h : Step M D σ σ') :
    (∃ t a k c r s', σ.program t = .act a k ∧ D.action t a σ.state ∧
      M.exec t a c σ.state = some (r, s') ∧ σ' = ⟨s', Function.update σ.program t (k r)⟩) ∨
    (∃ e t p s', D.launch e σ.state ∧ σ.program t = .done () ∧
      M.launch e σ.state = some (t, p, s') ∧ σ' = ⟨s', Function.update σ.program t p⟩) := by
  obtain ⟨m, hm, hn⟩ := h
  cases m with
  | run t c =>
      left
      simp only [System.next] at hn
      cases hp : σ.program t with
      | done v => simp [hp] at hn
      | act a k =>
          simp only [hp, Option.map_eq_some_iff] at hn
          obtain ⟨⟨r, s'⟩, hx, rfl⟩ := hn
          exact ⟨t, a, k, c, r, s', hp, hm a k hp, hx, rfl⟩
  | launch e =>
      right
      simp only [System.next, Option.bind_eq_some_iff] at hn
      obtain ⟨⟨t, p, s'⟩, hl, hn⟩ := hn
      cases hp : σ.program t with
      | act a k => simp [hp] at hn
      | done v =>
          simp only [hp, Option.some.injEq] at hn
          exact ⟨e, t, p, s', hm, hp, hl, hn.symm⟩

theorem Step.mono {M : System S Thread State Choice Launch}
    {D E : Discipline S Thread State Launch} (ha : ∀ t a s, D.action t a s → E.action t a s)
    (hl : ∀ e s, D.launch e s → E.launch e s) {σ σ' : Configuration S Thread State}
    (h : Step M D σ σ') : Step M E σ σ' := by
  obtain ⟨m, hm, hn⟩ := h
  refine ⟨m, ?_, hn⟩
  cases m with
  | run t c => exact fun a k hp => ha t a σ.state (hm a k hp)
  | launch e => exact hl e σ.state hm

theorem Reachable.mono {M : System S Thread State Choice Launch}
    {D E : Discipline S Thread State Launch} (ha : ∀ t a s, D.action t a s → E.action t a s)
    (hl : ∀ e s, D.launch e s → E.launch e s) {init σ : Configuration S Thread State}
    (h : Reachable M D init σ) : Reachable M E init σ :=
  Relation.ReflTransGen.mono (fun _ _ hs => Step.mono ha hl hs) _ _ h

section Play

variable (M : System S Thread State Choice Launch) (D : Discipline S Thread State Launch)
  [∀ t a s, Decidable (D.action t a s)] [∀ e s, Decidable (D.launch e s)]

instance (σ : Configuration S Thread State) (m : Move Thread Choice Launch) :
    Decidable (D.Takes σ m) :=
  match m with
  | .launch e => inferInstanceAs (Decidable (D.launch e σ.state))
  | .run t _ =>
      match hp : σ.program t with
      | .done _ => .isTrue fun _ _ h => nomatch hp.symm.trans h
      | .act a _ =>
          decidable_of_iff (D.action t a σ.state)
            ⟨fun h b _ hb => by cases hp.symm.trans hb; exact h,
              fun h => h a _ hp⟩

/-- The configuration after a list of scheduling decisions, if the discipline takes each of them. -/
def System.play : List (Move Thread Choice Launch) → Configuration S Thread State →
    Option (Configuration S Thread State)
  | [], σ => some σ
  | m :: ms, σ => if D.Takes σ m then (M.next m σ).bind (System.play ms) else none

variable {M D}

/-- A list of scheduling decisions is a run. -/
theorem reachable_of_play {ms : List (Move Thread Choice Launch)}
    {σ σ' : Configuration S Thread State} (h : M.play D ms σ = some σ') : Reachable M D σ σ' := by
  induction ms generalizing σ with
  | nil =>
      obtain rfl := Option.some.inj h
      exact .refl
  | cons m ms ih =>
      simp only [System.play] at h
      split at h
      · rename_i hm
        obtain ⟨τ, hτ, hrest⟩ := Option.bind_eq_some_iff.mp h
        exact Relation.ReflTransGen.head ⟨m, hm, hτ⟩ (ih hrest)
      · cases h

end Play

end Execution

/-- The obligations a group of threads share. -/
structure Contract (M : System S Thread State Choice Launch) where
  invariant : State → Prop
  legal : Thread → S.Action → State → Prop
  admits : Launch → State → Prop
  /-- What each thread guarantees while it is idle. -/
  idle : Thread → State → Prop
  legal_invariant : ∀ {t a c s r s'}, invariant s → legal t a s → M.exec t a c s = some (r, s') →
    invariant s'
  launch_invariant : ∀ {e s t p s'}, invariant s → admits e s → idle t s →
    M.launch e s = some (t, p, s') → invariant s'

namespace Contract

variable {M : System S Thread State Choice Launch} (C : Contract M)

/-- One step some thread other than `t` may take. -/
inductive Interferes (t : Thread) (s s' : State) : Prop where
  | action {u : Thread} {a : S.Action} {c : Choice} {r : S.Answer a} (hne : u ≠ t)
      (hinv : C.invariant s) (hlegal : C.legal u a s) (hx : M.exec u a c s = some (r, s'))
  | launch {u : Thread} {e : Launch} {p : Program S Unit} (hne : u ≠ t) (hinv : C.invariant s)
      (hadmits : C.admits e s) (hidle : C.idle u s) (hx : M.launch e s = some (u, p, s'))

/-- What thread `t` has to rely on: any number of steps of the others. -/
def Rely (t : Thread) : State → State → Prop := Relation.ReflTransGen (C.Interferes t)

/-- An assertion the other threads cannot invalidate. -/
def Stable (t : Thread) (P : State → Prop) : Prop := ∀ s s', C.Interferes t s s' → P s → P s'

variable {C}

theorem Interferes.invariant {t : Thread} {s s' : State} (h : C.Interferes t s s') :
    C.invariant s' := by
  cases h with
  | action hne hinv hlegal hx => exact C.legal_invariant hinv hlegal hx
  | launch hne hinv hadmits hidle hx => exact C.launch_invariant hinv hadmits hidle hx

theorem Stable.rely {t : Thread} {P : State → Prop} (hP : C.Stable t P) {s s' : State}
    (h : C.Rely t s s') (hs : P s) : P s' := by
  induction h with
  | refl => exact hs
  | tail _ hstep ih => exact hP _ _ hstep ih

theorem Stable.and {t : Thread} {P Q : State → Prop} (hP : C.Stable t P) (hQ : C.Stable t Q) :
    C.Stable t fun s => P s ∧ Q s :=
  fun s s' h hs => ⟨hP s s' h hs.1, hQ s s' h hs.2⟩

variable (C)

/-- **Safety under interference.**  Every action of the program is legal when it is performed,
however the other threads interfere, and `Q` holds once it is done. -/
def Safe (t : Thread) : Program S α → (α → State → Prop) → State → Prop
  | .done v, Q, s => ∀ s', C.Rely t s s' → C.invariant s' → Q v s'
  | .act a k, Q, s => ∀ s', C.Rely t s s' → C.invariant s' →
      C.legal t a s' ∧ ∀ c r s'', M.exec t a c s' = some (r, s'') → Safe t (k r) Q s''

variable {C} {t : Thread}

namespace Safe

theorem rely {p : Program S α} {Q : α → State → Prop} {s s' : State} (h : C.Safe t p Q s)
    (hr : C.Rely t s s') : C.Safe t p Q s' := by
  cases p with
  | done v => exact fun u hu hi => h u (hr.trans hu) hi
  | act a k => exact fun u hu hi => h u (hr.trans hu) hi

theorem mono {p : Program S α} {P Q : α → State → Prop} {s : State}
    (h : C.Safe t p P s) (hPQ : ∀ v u, C.invariant u → P v u → Q v u) : C.Safe t p Q s := by
  induction p generalizing s with
  | done v => exact fun u hu hi => hPQ v u hi (h u hu hi)
  | act a k ih =>
      intro u hu hi
      obtain ⟨hl, hk⟩ := h u hu hi
      exact ⟨hl, fun c r w hx => ih r (hk c r w hx)⟩

/-- A finished program keeps any assertion the others cannot invalidate. -/
theorem done {P : State → Prop} {Q : α → State → Prop} {v : α} {s : State} (hP : C.Stable t P)
    (hs : P s) (hQ : ∀ u, C.invariant u → P u → Q v u) : C.Safe t (.done v) Q s :=
  fun u hu hi => hQ u hi (hP.rely hu hs)

/-- **The rule of one action.**  It is enough to consider the states in which a stable precondition
holds. -/
theorem act {P : State → Prop} {Q : α → State → Prop} {a : S.Action}
    {k : S.Answer a → Program S α} {s : State} (hP : C.Stable t P) (hs : P s)
    (hlegal : ∀ u, C.invariant u → P u → C.legal t a u)
    (hk : ∀ u c r w, C.invariant u → P u → C.invariant w → M.exec t a c u = some (r, w) →
      C.Safe t (k r) Q w) :
    C.Safe t (.act a k) Q s := by
  intro u hu hi
  have hPu := hP.rely hu hs
  have hl := hlegal u hi hPu
  exact ⟨hl, fun c r w hx => hk u c r w hi hPu (C.legal_invariant hi hl hx) hx⟩

/-- **Sequential composition.** -/
theorem bind {p : Program S α} {f : α → Program S β} {Q : β → State → Prop} {s : State}
    (h : C.Safe t p (fun v u => C.Safe t (f v) Q u) s) (hs : C.invariant s) :
    C.Safe t (p >>= f) Q s := by
  induction p generalizing s with
  | done v => exact h s .refl hs
  | act a k ih =>
      intro u hu hi
      obtain ⟨hl, hk⟩ := h u hu hi
      exact ⟨hl, fun c r w hx => ih r (hk c r w hx) (C.legal_invariant hi hl hx)⟩

/-- A safe program run without interference reaches what it promises. -/
theorem runs {p : Program S α} {Q : α → State → Prop} {s s' : State} {v : α} (h : C.Safe t p Q s)
    (hs : C.invariant s) (hrun : Runs M.toMachine t p s v s') : C.invariant s' ∧ Q v s' := by
  induction hrun with
  | done v s => exact ⟨hs, h s .refl hs⟩
  | act hx _ ih =>
      obtain ⟨hl, hk⟩ := h _ .refl hs
      exact ih (hk _ _ _ hx) (C.legal_invariant hs hl hx)

/-- **Progress.**  Where every legal action can be performed, a safe program can run to its end. -/
theorem progress {p : Program S α} {Q : α → State → Prop} {s : State}
    (henabled : ∀ u a, C.invariant u → C.legal t a u → ∃ c r w, M.exec t a c u = some (r, w))
    (h : C.Safe t p Q s) (hs : C.invariant s) :
    ∃ v s', Runs M.toMachine t p s v s' ∧ Q v s' := by
  induction p generalizing s with
  | done v => exact ⟨v, s, .done v s, h s .refl hs⟩
  | act a k ih =>
      obtain ⟨hl, hk⟩ := h s .refl hs
      obtain ⟨c, r, w, hx⟩ := henabled s a hs hl
      obtain ⟨v, s', hrun, hQ⟩ := ih r (hk c r w hx) (C.legal_invariant hs hl hx)
      exact ⟨v, s', .act hx hrun, hQ⟩

/-- **Framing.**  What nobody's legal actions invalidate still holds when the program is done. -/
theorem frame {p : Program S α} {Q : α → State → Prop} {F : State → Prop} {s : State}
    (hF : C.Stable t F)
    (hown : ∀ u a c r w, C.invariant u → C.legal t a u → M.exec t a c u = some (r, w) → F u → F w)
    (h : C.Safe t p Q s) (hs : F s) : C.Safe t p (fun v u => Q v u ∧ F u) s := by
  induction p generalizing s with
  | done v => exact fun u hu hi => ⟨h u hu hi, hF.rely hu hs⟩
  | act a k ih =>
      intro u hu hi
      obtain ⟨hl, hk⟩ := h u hu hi
      exact ⟨hl, fun c r w hx => ih r (hk c r w hx) (hown u a c r w hi hl hx (hF.rely hu hs))⟩

/-- A program confined to actions that are legal wherever `F` holds, and that keep `F`. -/
theorem of_confined {allowed : S.Action → Prop} {p : Program S α} {F : State → Prop} {s : State}
    (hF : C.Stable t F) (hlegal : ∀ u a, C.invariant u → F u → allowed a → C.legal t a u)
    (hown : ∀ u a c r w, C.invariant u → F u → allowed a → M.exec t a c u = some (r, w) → F w)
    (hp : p.Confined allowed) (hs : F s) : C.Safe t p (fun _ => F) s := by
  induction p generalizing s with
  | done v => exact fun u hu _ => hF.rely hu hs
  | act a k ih =>
      intro u hu hi
      have hFu := hF.rely hu hs
      exact ⟨hlegal u a hi hFu hp.1, fun c r w hx => ih r (hp.2 r) (hown u a c r w hi hFu hp.1 hx)⟩

/-- A safe program can be cut in two. -/
theorem of_bind {p : Program S α} {f : α → Program S β} {Q : β → State → Prop} {s : State}
    (h : C.Safe t (p >>= f) Q s) : C.Safe t p (fun v u => C.Safe t (f v) Q u) s := by
  induction p generalizing s with
  | done v => exact fun u hu _ => Safe.rely h hu
  | act a k ih =>
      exact fun u hu hi => ⟨(h u hu hi).1, fun c r w hx => ih r ((h u hu hi).2 c r w hx)⟩

end Safe

/-- Two things that a program establishes. -/
theorem Safe.and {p : Program S α} {P Q : α → State → Prop} {s : State} (hP : C.Safe t p P s)
    (hQ : C.Safe t p Q s) : C.Safe t p (fun v u => P v u ∧ Q v u) s := by
  induction p generalizing s with
  | done v => exact fun u hu hi => ⟨hP u hu hi, hQ u hu hi⟩
  | act a k ih =>
      intro u hu hi
      obtain ⟨hl, hk⟩ := hP u hu hi
      obtain ⟨-, hk'⟩ := hQ u hu hi
      exact ⟨hl, fun c r w hx => ih r (hk c r w hx) (hk' c r w hx)⟩

section Fallible

variable {ε : Type}

/-- Sequential composition of programs that may fail: an error ends the program. -/
theorem Safe.bind_except {p : ExceptT ε (Program S) α} {f : α → ExceptT ε (Program S) β}
    {Q : Except ε β → State → Prop} {s : State}
    (h : C.Safe t p.run (fun r u => C.Safe t
      (match r with
        | .ok v => (f v).run
        | .error e => .done (.error e)) Q u) s)
    (hs : C.invariant s) : C.Safe t (p >>= f).run Q s := by
  refine Safe.bind (h.mono fun r u _ hr => ?_) hs
  cases r with
  | ok v => exact hr
  | error e => exact hr

/-- A program that cannot fail. -/
theorem Safe.lift {p : Program S α} {Q : Except ε α → State → Prop} {s : State}
    (h : C.Safe t p (fun v u => Q (.ok v) u) s) :
    C.Safe t (liftM p : ExceptT ε (Program S) α).run Q s := by
  show C.Safe t (p >>= fun v => .done (.ok v)) Q s
  induction p generalizing s with
  | done v => exact h
  | act a k ih =>
      exact fun u hu hi => ⟨(h u hu hi).1, fun c r w hx => ih r ((h u hu hi).2 c r w hx)⟩

end Fallible

/-! ### More obligations -/

/-- A contract with one obligation more: an action is legal only if the rule allows it, too, and `J`
is part of the invariant. -/
def strengthen (C : Contract M) (rule : Thread → S.Action → State → Prop) (J : State → Prop)
    (hact : ∀ t a c s r s', C.invariant s → C.legal t a s → rule t a s →
      M.exec t a c s = some (r, s') →
      J s → J s')
    (hlaunch : ∀ e s t p s', M.launch e s = some (t, p, s') → J s → J s') : Contract M where
  invariant s := C.invariant s ∧ J s
  legal t a s := C.legal t a s ∧ rule t a s
  admits := C.admits
  idle := C.idle
  legal_invariant h hl hx := ⟨C.legal_invariant h.1 hl.1 hx, hact _ _ _ _ _ _ h.1 hl.1 hl.2 hx h.2⟩
  launch_invariant h ha hi hx := ⟨C.launch_invariant h.1 ha hi hx, hlaunch _ _ _ _ _ hx h.2⟩

section Strengthen

variable {rule : Thread → S.Action → State → Prop} {J : State → Prop}
  {hact : ∀ t a c s r s', C.invariant s → C.legal t a s → rule t a s →
    M.exec t a c s = some (r, s') → J s → J s'}
  {hlaunch : ∀ e s t p s', M.launch e s = some (t, p, s') → J s → J s'}

/-- Who keeps to more obligations interferes less. -/
theorem Interferes.of_strengthen {s s' : State}
    (h : (C.strengthen rule J hact hlaunch).Interferes t s s') :
    C.Interferes t s s' := by
  cases h with
  | action hne hinv hlegal hx => exact .action hne hinv.1 hlegal.1 hx
  | launch hne hinv hadmits hidle hx => exact .launch hne hinv.1 hadmits hidle hx

theorem Stable.strengthen {P : State → Prop} (h : C.Stable t P) :
    (C.strengthen rule J hact hlaunch).Stable t P :=
  fun s s' hi hs => h s s' hi.of_strengthen hs

/-- **A safe program that cannot break the rule** is safe under the stronger contract. -/
theorem Safe.strengthen {p : Program S α} {Q : α → State → Prop} {s : State} (h : C.Safe t p Q s)
    (hp : p.Confined fun a => ∀ u, rule t a u) :
    (C.strengthen rule J hact hlaunch).Safe t p Q s := by
  have hrely : ∀ {u u'}, (C.strengthen rule J hact hlaunch).Rely t u u' → C.Rely t u u' :=
    fun hr => Relation.ReflTransGen.mono (fun _ _ hi => hi.of_strengthen) _ _ hr
  induction p generalizing s with
  | done v => exact fun u hu hi => h u (hrely hu) hi.1
  | act a k ih =>
      intro u hu hi
      obtain ⟨hl, hk⟩ := h u (hrely hu) hi.1
      exact ⟨⟨hl, hp.1 u⟩, fun c r w hx => ih r (hk c r w hx) (hp.2 r)⟩

end Strengthen

/-! ### One thread alone -/

/-- The contract of one thread that nobody interferes with, and that keeps to the allowed
actions. -/
def solo (M : System S Thread State Choice Launch) (t : Thread)
    (allowed : S.Action → State → Prop) : Contract M where
  invariant _ := True
  legal u a s := u = t ∧ allowed a s
  admits _ _ := False
  idle _ _ := True
  legal_invariant _ _ _ := trivial
  launch_invariant _ h := h.elim

theorem solo_not_interferes {allowed : S.Action → State → Prop} {s s' : State} :
    ¬ (solo M t allowed).Interferes t s s' := by
  rintro (⟨hne, _, hlegal, _⟩ | ⟨_, _, hadmits, _, _⟩)
  · exact hne hlegal.1
  · exact hadmits

theorem solo_stable {allowed : S.Action → State → Prop} (P : State → Prop) :
    (solo M t allowed).Stable t P :=
  fun _ _ h => absurd h solo_not_interferes

/-- The invariant holds and every thread is safe. -/
structure WellBehaved (C : Contract M) (σ : Configuration S Thread State) : Prop where
  invariant : C.invariant σ.state
  safe : ∀ t, C.Safe t (σ.program t) (fun _ => C.idle t) σ.state

/-- The next action of every thread is legal. -/
theorem WellBehaved.legal {σ : Configuration S Thread State} (h : C.WellBehaved σ) {t : Thread}
    {a : S.Action} {k : S.Answer a → Program S Unit} (hp : σ.program t = .act a k) :
    C.legal t a σ.state := by
  have hs := h.safe t
  rw [hp] at hs
  exact (hs σ.state .refl h.invariant).1

/-- A thread with nothing left to do is idle. -/
theorem WellBehaved.idle {σ : Configuration S Thread State} (h : C.WellBehaved σ) {t : Thread}
    (hp : σ.program t = .done ()) : C.idle t σ.state := by
  have hs := h.safe t
  rw [hp] at hs
  exact hs σ.state .refl h.invariant

section Soundness

variable [DecidableEq Thread] {D : Discipline S Thread State Launch}

theorem step_wellBehaved (hD : ∀ e s, D.launch e s → C.admits e s)
    (hlaunch : ∀ e s t p s', C.invariant s → C.admits e s → C.idle t s →
      M.launch e s = some (t, p, s') → C.Safe t p (fun _ => C.idle t) s')
    {σ σ' : Configuration S Thread State} (h : C.WellBehaved σ) (hstep : Step M D σ σ') :
    C.WellBehaved σ' := by
  obtain ⟨t, a, k, c, r, s', hp, -, hx, rfl⟩ | ⟨e, t, p, s', he, hp, hx, rfl⟩ := step_cases hstep
  · have hl := h.legal hp
    refine ⟨C.legal_invariant h.invariant hl hx, fun u => ?_⟩
    by_cases hu : u = t
    · subst hu
      have hs := h.safe u
      rw [hp] at hs
      simpa using (hs σ.state .refl h.invariant).2 c r s' hx
    · simpa [hu] using
        (h.safe u).rely (.single (.action (Ne.symm hu) h.invariant hl hx))
  · have hi := h.idle hp
    refine ⟨C.launch_invariant h.invariant (hD e _ he) hi hx, fun u => ?_⟩
    by_cases hu : u = t
    · subst hu
      simpa using hlaunch e _ u p s' h.invariant (hD e _ he) hi hx
    · simpa [hu] using
        (h.safe u).rely (.single (.launch (Ne.symm hu) h.invariant (hD e _ he) hi hx))

/-- **Soundness.**  If the contract is met at the start and by every program that is ever launched,
it is met in every reachable configuration. -/
theorem reachable_wellBehaved (hD : ∀ e s, D.launch e s → C.admits e s)
    (hlaunch : ∀ e s t p s', C.invariant s → C.admits e s → C.idle t s →
      M.launch e s = some (t, p, s') → C.Safe t p (fun _ => C.idle t) s')
    {init σ : Configuration S Thread State} (hinit : C.WellBehaved init)
    (h : Reachable M D init σ) : C.WellBehaved σ := by
  induction h with
  | refl => exact hinit
  | tail _ hstep ih => exact step_wellBehaved hD hlaunch ih hstep

end Soundness
end Contract
end AtomicProgram
