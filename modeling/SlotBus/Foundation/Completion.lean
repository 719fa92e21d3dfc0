import SlotBus.Foundation.Interleaving

/-!
# Completing what has been begun

Programs are finite trees, so a thread whose actions can always happen can be run to its end, and
all threads can be run to their ends one after the other.

* `Machine.Enables` — the actions that can always happen;
* `Configuration.active` — the threads that have something left to do; in a run there are finitely
  many (`Step.active_finite`);
* `exists_all_done` — **a run in which no thread is stuck can always be completed** by the threads
  that are under way.
-/

namespace AtomicProgram

variable {S : Signature} {Thread State Choice Launch : Type}

/-- The scheduler can always let the action happen. -/
def Machine.Enables (M : Machine S Thread State Choice) (a : S.Action) : Prop :=
  ∀ t s, ∃ c r s', M.exec t a c s = some (r, s')

/-- A program of such actions runs to its end. -/
theorem Machine.exists_end {M : Machine S Thread State Choice} {p : Program S Unit}
    (hp : p.Confined M.Enables) (t : Thread) (s : State) : ∃ s', Runs M t p s () s' := by
  obtain ⟨v, s', hrun⟩ := Runs.exists_of_confined hp (fun a ha => ha t) s
  exact ⟨s', hrun⟩

/-- The threads that have something left to do. -/
def Configuration.active (σ : Configuration S Thread State) : Set Thread :=
  {t | σ.program t ≠ .done ()}

/-- No thread has anything left to do. -/
def Configuration.Quiet (σ : Configuration S Thread State) : Prop := ∀ t, σ.program t = .done ()

section Steps

variable [DecidableEq Thread] {M : System S Thread State Choice Launch}
    {D : Discipline S Thread State Launch}
  {σ σ' : Configuration S Thread State}

/-- A step changes what one thread has to do. -/
theorem Step.active_finite (h : Step M D σ σ') (hfin : σ.active.Finite) : σ'.active.Finite := by
  have hone : ∀ (t : Thread) (p : Program S Unit) (s : State),
      (Configuration.mk s (Function.update σ.program t p)).active ⊆ insert t σ.active := by
    intro t p s u hu
    by_cases hut : u = t
    · exact .inl hut
    · right
      have hne : Function.update σ.program t p u ≠ .done () := hu
      rw [Function.update_of_ne hut] at hne
      exact hne
  obtain ⟨t, a, k, c, r, s', -, -, -, rfl⟩ | ⟨e, t, p, s', -, -, -, rfl⟩ := step_cases h
  · exact (hfin.insert t).subset (hone t _ s')
  · exact (hfin.insert t).subset (hone t _ s')

/-- What the actions of all programs that are launched satisfy, the actions of all threads do. -/
theorem Step.confined {allowed : S.Action → Prop}
    (hlaunch : ∀ {e s t p s'}, M.launch e s = some (t, p, s') → p.Confined allowed)
    (h : Step M D σ σ') (hσ : ∀ t, (σ.program t).Confined allowed) :
    ∀ t, (σ'.program t).Confined allowed := by
  have hupdate : ∀ {t : Thread} {p : Program S Unit}, p.Confined allowed →
      ∀ u, (Function.update σ.program t p u).Confined allowed := by
    intro t p hp u
    by_cases hut : u = t
    · subst hut
      rw [Function.update_self]
      exact hp
    · rw [Function.update_of_ne hut]
      exact hσ u
  obtain ⟨t, a, k, c, r, s', hp, -, -, rfl⟩ | ⟨e, t, p, s', -, -, hx, rfl⟩ := step_cases h
  · have hact := hσ t
    rw [hp] at hact
    exact hupdate (hact.2 r)
  · exact hupdate (hlaunch hx)

end Steps

section Completion

variable [DecidableEq Thread] {M : System S Thread State Choice Launch} {P : Launch → State → Prop}

/-- One thread alone goes on to its end. -/
theorem reachable_of_runs {t : Thread} {p : Program S Unit} {s s' : State} {v : Unit}
    (hrun : Runs M.toMachine t p s v s') {programs : Thread → Program S Unit}
    (hp : programs t = p) :
    Reachable M (.launching P) ⟨s, programs⟩ ⟨s', Function.update programs t (.done v)⟩ := by
  induction hrun generalizing programs with
  | done v s =>
      rw [← hp, Function.update_eq_self]
      exact .refl
  | @act a k c s s₁ s₂ r v hx _ ih =>
      have hstep : Step M (.launching P) ⟨s, programs⟩ ⟨s₁, Function.update programs t (k r)⟩ := by
        refine ⟨.run t c, fun _ _ _ => trivial, ?_⟩
        simp only [System.next, hp, Option.map_eq_some_iff]
        exact ⟨(r, s₁), hx, rfl⟩
      have hrest := ih (Function.update_self t (k r) programs)
      rw [Function.update_idem] at hrest
      exact .head hstep hrest

/-- A launch, and the launched thread alone to its end. -/
theorem reachable_of_launch {σ : Configuration S Thread State} {e : Launch}
    {t : Thread} {p : Program S Unit} {s s' : State} (he : P e σ.state)
    (hidle : σ.program t = .done ()) (hx : M.launch e σ.state = some (t, p, s))
    (hrun : Runs M.toMachine t p s () s') : Reachable M (.launching P) σ ⟨s', σ.program⟩ := by
  have hstep : Step M (.launching P) σ ⟨s, Function.update σ.program t p⟩ := by
    refine ⟨.launch e, he, ?_⟩
    simp only [System.next, Option.bind_eq_some_iff]
    exact ⟨(t, p, s), hx, by rw [hidle]⟩
  have hrest := reachable_of_runs (P := P) hrun (Function.update_self t p σ.program)
  rw [Function.update_idem, ← hidle, Function.update_eq_self] at hrest
  exact .head hstep hrest

/-- The threads of a finite set, one after the other. -/
theorem exists_done_outside (active : Finset Thread) {σ : Configuration S Thread State}
    (hp : ∀ t, (σ.program t).Confined M.Enables) (hdone : ∀ t ∉ active, σ.program t = .done ()) :
    ∃ σ', Reachable M (.launching P) σ σ' ∧ σ'.Quiet := by
  induction active using Finset.induction_on generalizing σ with
  | empty => exact ⟨σ, .refl, fun t => hdone t (Finset.notMem_empty t)⟩
  | insert t rest _ ih =>
      obtain ⟨s', hrun⟩ := Machine.exists_end (hp t) t σ.state
      have hfirst : Reachable M (.launching P) σ ⟨s', Function.update σ.program t (.done ())⟩ :=
        reachable_of_runs hrun rfl
      have hupdate :
          ∀ u, Function.update σ.program t (.done ()) u = if u = t then .done () else σ.program u :=
        fun u => Function.update_apply _ _ _ _
      obtain ⟨σ', hrest, hquiet⟩ := ih (σ := ⟨s', Function.update σ.program t (.done ())⟩)
        (fun u => by
          show (Function.update σ.program t (.done ()) u).Confined M.Enables
          rw [hupdate]
          split
          · trivial
          · exact hp u)
        fun u hu => by
          show Function.update σ.program t (.done ()) u = .done ()
          rw [hupdate]
          split
          · rfl
          · rename_i hut
            exact hdone u fun hmem => (Finset.mem_insert.mp hmem).elim hut hu
      exact ⟨σ', hfirst.trans hrest, hquiet⟩

/-- **Every run can be completed** by the threads that are under way, if none of them can get
stuck. -/
theorem exists_all_done {σ : Configuration S Thread State} (hfin : σ.active.Finite)
    (hp : ∀ t, (σ.program t).Confined M.Enables) :
    ∃ σ', Reachable M (.launching P) σ σ' ∧ σ'.Quiet := by
  refine exists_done_outside hfin.toFinset hp fun t ht => ?_
  by_contra hne
  exact ht (hfin.mem_toFinset.mpr hne)

end Completion

end AtomicProgram
