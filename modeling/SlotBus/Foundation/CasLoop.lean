import Mathlib.Data.List.Basic
import Mathlib.Logic.Function.Basic
import Mathlib.Logic.Relation

/-!
# Loops around a compare-exchange

Threads that operate on one atomic cell: an operation loads the cell, computes what to install, and
tries to install it with a compare-exchange until nobody has changed the cell in between.

* `Method`, `Method.apply` — an operation, and what it does when nobody interferes;
* `Object`, `next` — the threads, one atomic step at a time, in any order;
* `linearizable` — **every operation takes effect at one moment between its call and its return**,
  and what the operations return is what they would return one after the other in the order of these
  moments;
* `exists_run` — and whatever they do one after the other is a run;
* `retries_le` — a thread tries again at most as often as operations of other threads take effect.
-/

namespace CasLoop

variable {Thread Op V R S : Type}

/-! ### Operations -/

/-- An operation on the cell: a loop, or a plain store. -/
inductive Method (V R : Type) where
  /-- From the value that was loaded: what to install, if anything, and what to return. -/
  | loop (round : V → Option V × R)
  | store (v : V) (r : R)

/-- What an operation does when nobody interferes. -/
def Method.apply : Method V R → V → V × R
  | .loop round, v => ((round v).1.getD v, (round v).2)
  | .store v r, _ => (v, r)

/-- The operations one after the other, with what they return. -/
inductive Sequential (method : Op → Method V R) (start : V) : List (Op × R) → V → Prop where
  | nil : Sequential method start [] start
  | snoc {calls : List (Op × R)} {v : V} (op : Op) (h : Sequential method start calls v) :
      Sequential method start (calls ++ [(op, ((method op).apply v).2)]) ((method op).apply v).1

/-- The cell as part of a state, the operations on it, and what else may happen to the state. -/
structure Object (Op V R S : Type) where
  method : Op → Method V R
  cell : S → V
  put : V → S → S
  cell_put : ∀ v s, cell (put v s) = v
  environment : S → S → Prop
  cell_environment : ∀ {s s'}, environment s s' → cell s' = cell s

/-! ### Threads -/

/-- Where a thread is. -/
inductive Phase (Op V R : Type) where
  | idle
  | loading (op : Op)
  | swapping (op : Op) (loaded new : V) (r : R)
  | returning (op : Op) (r : R)

/-- What is recorded of a run; `point` is the moment at which an operation takes effect. -/
inductive Event (Thread Op R : Type) where
  | call (t : Thread) (op : Op)
  | point (t : Thread) (op : Op) (r : R)
  | retry (t : Thread)
  | ret (t : Thread) (op : Op) (r : R)

def Event.thread : Event Thread Op R → Thread
  | .call t _ => t
  | .point t _ _ => t
  | .retry t => t
  | .ret t _ _ => t

/-- The operation that takes effect, with what it returns. -/
def Event.effect : Event Thread Op R → Option (Op × R)
  | .point _ op r => some (op, r)
  | _ => none

/-- The operations that have taken effect, in order. -/
def points (history : List (Event Thread Op R)) : List (Op × R) := history.filterMap Event.effect

structure State (Thread Op V R S : Type) where
  shared : S
  phase : Thread → Phase Op V R
  history : List (Event Thread Op R)

/-- A thread that has nothing to do calls an operation, or a thread goes on. -/
inductive Move (Thread Op : Type) where
  | call (t : Thread) (op : Op)
  | act (t : Thread)

variable [DecidableEq Thread]

/-- The thread goes on, and it is recorded. -/
def State.record (σ : State Thread Op V R S) (e : Event Thread Op R) (p : Phase Op V R) :
    State Thread Op V R S :=
  { σ with phase := Function.update σ.phase e.thread p, history := σ.history ++ [e] }

/-- One atomic step of a thread. -/
def next [DecidableEq V] (O : Object Op V R S) : Move Thread Op → State Thread Op V R S →
    Option (State Thread Op V R S)
  | .call t op, σ =>
      match σ.phase t with
      | .idle => some (σ.record (.call t op) (.loading op))
      | _ => none
  | .act t, σ =>
      match σ.phase t with
      | .idle => none
      | .loading op =>
          match O.method op with
          | .store v r =>
              some ({ σ with shared := O.put v σ.shared }.record (.point t op r) (.returning op r))
          | .loop round =>
              match round (O.cell σ.shared) with
              | (none, r) => some (σ.record (.point t op r) (.returning op r))
              | (some new, r) =>
                  some { σ with
                    phase := Function.update σ.phase t (.swapping op (O.cell σ.shared) new r) }
      | .swapping op loaded new r =>
          if O.cell σ.shared = loaded then
            some ({ σ with shared := O.put new σ.shared }.record (.point t op r) (.returning op r))
          else some (σ.record (.retry t) (.loading op))
      | .returning op r => some (σ.record (.ret t op r) .idle)

variable {O : Object Op V R S}

/-- What a step can do: a thread goes on, or the rest of the state changes. -/
inductive Step (O : Object Op V R S) (σ : State Thread Op V R S) :
    State Thread Op V R S → Prop where
  | call {t : Thread} (op : Op) (h : σ.phase t = .idle) :
      Step O σ (σ.record (.call t op) (.loading op))
  | load {t : Thread} {op : Op} {round : V → Option V × R} {new : V} {r : R}
      (h : σ.phase t = .loading op) (hmethod : O.method op = .loop round)
      (hround : round (O.cell σ.shared) = (some new, r)) :
      Step O σ { σ with phase := Function.update σ.phase t (.swapping op (O.cell σ.shared) new r) }
  | retry {t : Thread} {op : Op} {loaded new : V} {r : R}
      (h : σ.phase t = .swapping op loaded new r) (hne : O.cell σ.shared ≠ loaded) :
      Step O σ (σ.record (.retry t) (.loading op))
  | decline {t : Thread} {op : Op} {round : V → Option V × R} {r : R} (h : σ.phase t = .loading op)
      (hmethod : O.method op = .loop round) (hround : round (O.cell σ.shared) = (none, r)) :
      Step O σ (σ.record (.point t op r) (.returning op r))
  | store {t : Thread} {op : Op} {v : V} {r : R} (h : σ.phase t = .loading op)
      (hmethod : O.method op = .store v r) :
      Step O σ ({ σ with shared := O.put v σ.shared }.record (.point t op r) (.returning op r))
  | swap {t : Thread} {op : Op} {new : V} {r : R}
      (h : σ.phase t = .swapping op (O.cell σ.shared) new r) :
      Step O σ ({ σ with shared := O.put new σ.shared }.record (.point t op r) (.returning op r))
  | ret {t : Thread} {op : Op} {r : R} (h : σ.phase t = .returning op r) :
      Step O σ (σ.record (.ret t op r) .idle)
  | environment {w : S} (h : O.environment σ.shared w) : Step O σ { σ with shared := w }

theorem next_step [DecidableEq V] {m : Move Thread Op} {σ σ' : State Thread Op V R S}
    (h : next O m σ = some σ') : Step O σ σ' := by
  cases m with
  | call t op =>
      simp only [next] at h
      split at h
      · rename_i hp
        rw [← Option.some.inj h]
        exact .call op hp
      · cases h
  | act t =>
      simp only [next] at h
      split at h
      · cases h
      · rename_i op hp
        split at h
        · rename_i hmethod
          rw [← Option.some.inj h]
          exact .store hp hmethod
        · rename_i hmethod
          split at h
          · rename_i hround
            rw [← Option.some.inj h]
            exact .decline hp hmethod hround
          · rename_i hround
            rw [← Option.some.inj h]
            exact .load hp hmethod hround
      · rename_i hp
        split at h
        · rename_i hcell
          subst hcell
          rw [← Option.some.inj h]
          exact .swap hp
        · rename_i hne
          rw [← Option.some.inj h]
          exact .retry hp hne
      · rename_i hp
        rw [← Option.some.inj h]
        exact .ret hp

/-- The start: nobody has called anything. -/
def State.start (s : S) : State Thread Op V R S := ⟨s, fun _ => .idle, []⟩

/-- The states that runs from `s` reach. -/
def Reaches (O : Object Op V R S) (s : S) : State Thread Op V R S → Prop :=
  Relation.ReflTransGen (Step O) (State.start s)

/-- One step after the other. -/
def play [DecidableEq V] (O : Object Op V R S) : List (Move Thread Op) → State Thread Op V R S →
    Option (State Thread Op V R S)
  | [], σ => some σ
  | m :: ms, σ => (next O m σ).bind (play O ms)

/-- A list of moves is a run. -/
theorem reachable_of_play [DecidableEq V] {ms : List (Move Thread Op)}
    {σ σ' : State Thread Op V R S} (h : play O ms σ = some σ') :
    Relation.ReflTransGen (Step O) σ σ' := by
  induction ms generalizing σ with
  | nil =>
      obtain rfl := Option.some.inj h
      exact .refl
  | cons m ms ih =>
      obtain ⟨τ, hnext, hrest⟩ := Option.bind_eq_some_iff.mp h
      exact .head (next_step hnext) (ih hrest)

theorem reaches_of_play [DecidableEq V] {ms : List (Move Thread Op)} {s : S}
    {σ : State Thread Op V R S} (h : play O ms (State.start s) = some σ) : Reaches O s σ :=
    reachable_of_play h

/-! ### The calls of one thread -/

/-- How far the current call of a thread is, as its events tell. -/
inductive Stage (Op R : Type) where
  | idle
  | pending (op : Op)
  | decided (op : Op) (r : R)

/-- A thread calls, its operation takes effect once, and it returns what was decided then. -/
inductive Orderly (t : Thread) : List (Event Thread Op R) → Stage Op R → Prop where
  | nil : Orderly t [] .idle
  | call {h : List (Event Thread Op R)} (op : Op) :
      Orderly t h .idle → Orderly t (h ++ [.call t op]) (.pending op)
  | point {h : List (Event Thread Op R)} {op : Op} (r : R) :
      Orderly t h (.pending op) → Orderly t (h ++ [.point t op r]) (.decided op r)
  | retry {h : List (Event Thread Op R)} {op : Op} :
      Orderly t h (.pending op) → Orderly t (h ++ [.retry t]) (.pending op)
  | ret {h : List (Event Thread Op R)} {op : Op} {r : R} :
      Orderly t h (.decided op r) → Orderly t (h ++ [.ret t op r]) .idle
  | other {h : List (Event Thread Op R)} {stage : Stage Op R} {e : Event Thread Op R}
      (he : e.thread ≠ t) :
      Orderly t h stage → Orderly t (h ++ [e]) stage

/-- The stage of a thread that is in a phase. -/
def Phase.stage : Phase Op V R → Stage Op R
  | .idle => .idle
  | .loading op => .pending op
  | .swapping op _ _ _ => .pending op
  | .returning op r => .decided op r

/-- What a thread is about to install is what its operation makes of the value that it has
loaded. -/
def Phase.Computed (O : Object Op V R S) : Phase Op V R → Prop
  | .swapping op loaded new r => ∃ round, O.method op = .loop round ∧ round loaded = (some new, r)
  | _ => True

/-- What holds of every state that a run from `s` reaches. -/
structure Linearized (O : Object Op V R S) (s : S) (σ : State Thread Op V R S) : Prop where
  sequential : Sequential O.method (O.cell s) (points σ.history) (O.cell σ.shared)
  orderly : ∀ t, Orderly t σ.history (σ.phase t).stage
  computed : ∀ t, (σ.phase t).Computed O

section Recording

variable {σ : State Thread Op V R S} {e : Event Thread Op R} {p : Phase Op V R}

theorem points_record (σ : State Thread Op V R S) (e : Event Thread Op R) (p : Phase Op V R) :
    points (σ.record e p).history = points σ.history ++ e.effect.toList := by
  show List.filterMap Event.effect (σ.history ++ [e]) = _
  rw [List.filterMap_append]
  cases e <;> rfl

/-- An event of one thread does not matter to the others. -/
theorem orderly_record (h : ∀ u, Orderly u σ.history (σ.phase u).stage)
    (he : Orderly e.thread (σ.history ++ [e]) p.stage) (u : Thread) :
    Orderly u (σ.record e p).history ((σ.record e p).phase u).stage := by
  show Orderly u (σ.history ++ [e]) (Function.update σ.phase e.thread p u).stage
  by_cases hu : u = e.thread
  · subst hu
    rw [Function.update_self]
    exact he
  · rw [Function.update_of_ne hu]
    exact .other (Ne.symm hu) (h u)

theorem computed_update {t : Thread} (h : ∀ u, (σ.phase u).Computed O)
    (hp : p.Computed O) (u : Thread) :
    (Function.update σ.phase t p u).Computed O := by
  by_cases hu : u = t
  · subst hu
    rw [Function.update_self]
    exact hp
  · rw [Function.update_of_ne hu]
    exact h u

end Recording

section Runs

variable {s : S} {σ σ' : State Thread Op V R S}

omit [DecidableEq Thread] in
theorem Linearized.start (s : S) : Linearized O s (State.start s : State Thread Op V R S) :=
  ⟨.nil, fun _ => .nil, fun _ => trivial⟩

/-- The moment at which an operation takes effect. -/
theorem Linearized.point (h : Linearized O s σ) {t : Thread} {op : Op} {r : R} {w : S}
    (hpending : Orderly t σ.history (.pending op))
    (happly : (O.method op).apply (O.cell σ.shared) = (O.cell w, r)) :
    Linearized O s ({ σ with shared := w }.record (.point t op r) (.returning op r)) := by
  refine ⟨?_, orderly_record h.orderly (.point r hpending), computed_update h.computed trivial⟩
  have hsnoc := h.sequential.snoc op
  rw [happly] at hsnoc
  rw [points_record]
  exact hsnoc

theorem Linearized.step (h : Linearized O s σ) (hstep : Step O σ σ') : Linearized O s σ' := by
  -- the events that are not moments of effect
  have hrecord : ∀ {e : Event Thread Op R} {p : Phase Op V R}, e.effect = none →
      Orderly e.thread (σ.history ++ [e]) p.stage → p.Computed O →
        Linearized O s (σ.record e p) := by
    intro e p he ho hp
    refine ⟨?_, orderly_record h.orderly ho, computed_update h.computed hp⟩
    rw [points_record, he, Option.toList_none, List.append_nil]
    exact h.sequential
  have hphase : ∀ {t : Thread} {p : Phase Op V R}, σ.phase t = p → Orderly t σ.history p.stage := by
    intro t p hp
    rw [← hp]
    exact h.orderly t
  cases hstep with
  | call op hp => exact hrecord rfl (.call op (hphase hp)) trivial
  | @load t op round new r hp hmethod hround =>
      refine ⟨h.sequential, fun u => ?_, computed_update h.computed ⟨round, hmethod, hround⟩⟩
      show Orderly u σ.history (Function.update σ.phase t _ u).stage
      by_cases hu : u = t
      · subst hu
        rw [Function.update_self]
        exact (hphase hp : Orderly u σ.history (.pending op))
      · rw [Function.update_of_ne hu]
        exact h.orderly u
  | retry hp hne => exact hrecord rfl (.retry (hphase hp)) trivial
  | decline hp hmethod hround =>
      refine h.point (w := σ.shared) (hphase hp) ?_
      rw [hmethod]
      simp only [Method.apply, hround, Option.getD_none]
  | store hp hmethod =>
      refine h.point (hphase hp) ?_
      rw [hmethod, O.cell_put]
      rfl
  | @swap t op new r hp =>
      have hcomputed := h.computed t
      rw [hp] at hcomputed
      obtain ⟨round, hmethod, hround⟩ := hcomputed
      refine h.point (hphase hp) ?_
      rw [hmethod, O.cell_put]
      simp only [Method.apply, hround, Option.getD_some]
  | ret hp => exact hrecord rfl (.ret (hphase hp)) trivial
  | @environment w hw =>
      refine ⟨?_, h.orderly, h.computed⟩
      show Sequential O.method (O.cell s) (points σ.history) (O.cell w)
      rw [O.cell_environment hw]
      exact h.sequential

/-- **Loops around a compare-exchange are linearizable**: what the operations of any run do is what
they do one after the other in the order in which they take effect, each at one moment between its
call and its return. -/
theorem linearizable (h : Reaches O s σ) : Linearized O s σ := by
  induction h with
  | refl => exact .start s
  | tail _ hstep ih => exact ih.step hstep

/-- One operation, from its call to its return, when nobody interferes. -/
theorem exists_call (σ : State Thread Op V R S) {t : Thread} (hidle : σ.phase t = .idle) (op : Op) :
    ∃ σ', Relation.ReflTransGen (Step O) σ σ' ∧
      points σ'.history = points σ.history ++ [(op, ((O.method op).apply (O.cell σ.shared)).2)] ∧
      O.cell σ'.shared = ((O.method op).apply (O.cell σ.shared)).1 ∧ σ'.phase t = .idle := by
  have hcall : Step O σ (σ.record (.call t op) (.loading op)) := .call op hidle
  have hloading : (σ.record (.call t op) (.loading op)).phase t = .loading op :=
    Function.update_self _ _ _
  generalize hσ₁ : σ.record (.call t op) (.loading op) = σ₁ at hcall hloading
  have hshared : σ₁.shared = σ.shared := by rw [← hσ₁]; rfl
  have hpoints : points σ₁.history = points σ.history := by
    rw [← hσ₁, points_record]
    exact List.append_nil _
  -- what is left is to return
  have hreturn : ∀ {τ : State Thread Op V R S} {r : R} (w : S),
      Relation.ReflTransGen (Step O) σ₁ τ →
      Step O τ ({ τ with shared := w }.record (.point t op r) (.returning op r)) →
        points τ.history = points σ.history →
      (O.method op).apply (O.cell σ.shared) = (O.cell w, r) → ∃ σ',
        Relation.ReflTransGen (Step O) σ σ' ∧
        points σ'.history = points σ.history ++ [(op, ((O.method op).apply (O.cell σ.shared)).2)] ∧
        O.cell σ'.shared = ((O.method op).apply (O.cell σ.shared)).1 ∧ σ'.phase t = .idle := by
    intro τ r w hτ hpoint hτpoints happly
    generalize hdecided :
      ({ τ with shared := w }.record (.point t op r) (.returning op r)) = υ at hpoint
    have hreturning : υ.phase t = .returning op r := by
      rw [← hdecided]
      exact Function.update_self _ _ _
    refine ⟨_, (Relation.ReflTransGen.head hcall (hτ.tail hpoint)).tail (.ret hreturning), ?_, ?_,
      Function.update_self _ _ _⟩
    all_goals rw [← hdecided]
    · rw [points_record, points_record, happly]
      show points τ.history ++ _ ++ [] = _
      rw [List.append_nil, hτpoints]
      rfl
    · rw [happly]
      rfl
  cases hmethod : O.method op with
  | store v r =>
      rw [hmethod] at hreturn
      refine hreturn (O.put v σ₁.shared) .refl (.store hloading hmethod) hpoints ?_
      rw [O.cell_put]
      rfl
  | loop round =>
      rw [hmethod] at hreturn
      generalize hround : round (O.cell σ₁.shared) = outcome
      obtain ⟨new, r⟩ := outcome
      rw [hshared] at hround
      cases new with
      | none =>
          refine hreturn σ₁.shared .refl
            (.decline hloading hmethod (by rw [hshared]; exact hround)) hpoints ?_
          simp only [Method.apply, hround, Option.getD_none, hshared]
      | some new =>
          have hload :
              Step O σ₁ { σ₁ with
                phase := Function.update σ₁.phase t (.swapping op (O.cell σ₁.shared) new r) } :=
            .load hloading hmethod (by rw [hshared]; exact hround)
          refine hreturn (O.put new σ₁.shared) (.single hload)
            (.swap (Function.update_self _ _ _)) hpoints ?_
          rw [O.cell_put]
          simp only [Method.apply, hround, Option.getD_some]

/-- **What is done one after the other is a run.** -/
theorem exists_run (t : Thread) {calls : List (Op × R)} {v : V}
    (h : Sequential O.method (O.cell s) calls v) :
    ∃ σ : State Thread Op V R S, Reaches O s σ ∧ points σ.history = calls ∧ O.cell σ.shared = v ∧
      σ.phase t = .idle := by
  induction h with
  | nil => exact ⟨.start s, .refl, rfl, rfl, rfl⟩
  | snoc op _ ih =>
      obtain ⟨σ, hreach, rfl, rfl, hidle⟩ := ih
      obtain ⟨σ', hcall, hpoints, hcell, hidle'⟩ := exists_call σ hidle op
      exact ⟨σ', hreach.trans hcall, hpoints, hcell, hidle'⟩

/-! ### Progress -/

/-- The rounds of the loop that a thread has lost. -/
def retries (t : Thread) (history : List (Event Thread Op R)) : ℕ := history.countP fun
  | .retry u => u = t
  | _ => false

/-- The operations of other threads that have taken effect. -/
def others (t : Thread) (history : List (Event Thread Op R)) : ℕ := history.countP fun
  | .point u _ _ => u ≠ t
  | _ => false

/-- Whoever finds the cell changed has been overtaken. -/
structure Overtaken (O : Object Op V R S) (t : Thread) (σ : State Thread Op V R S) : Prop where
  le : retries t σ.history ≤ others t σ.history
  lt : ∀ op loaded new r, σ.phase t = .swapping op loaded new r → O.cell σ.shared ≠ loaded →
    retries t σ.history < others t σ.history

theorem retries_record (t : Thread) (σ : State Thread Op V R S) (e : Event Thread Op R)
    (p : Phase Op V R) :
    retries t (σ.record e p).history = retries t σ.history + retries t [e] := List.countP_append

theorem others_record (t : Thread) (σ : State Thread Op V R S) (e : Event Thread Op R)
    (p : Phase Op V R) :
    others t (σ.record e p).history = others t σ.history + others t [e] := List.countP_append

section Overtaking

variable {t u : Thread} {op : Op} {r : R} {p : Phase Op V R}

/-- A call or a return. -/
theorem Overtaken.pass (h : Overtaken O t σ) {e : Event Thread Op R} (hretries : retries t [e] = 0)
    (hothers : others t [e] = 0) (hp : ∀ op loaded new r, p ≠ .swapping op loaded new r) :
    Overtaken O t (σ.record e p) := by
  refine ⟨?_, fun op loaded new r hphase hne => ?_⟩
  · rw [retries_record, others_record, hretries, hothers]
    exact h.le
  · rw [retries_record, others_record, hretries, hothers]
    have hphase' : Function.update σ.phase e.thread p t = .swapping op loaded new r := hphase
    by_cases hu : t = e.thread
    · subst hu
      rw [Function.update_self] at hphase'
      exact absurd hphase' (hp op loaded new r)
    · rw [Function.update_of_ne hu] at hphase'
      exact h.lt op loaded new r hphase' hne

/-- An operation takes effect: every other thread may be overtaken by it. -/
theorem Overtaken.point (h : Overtaken O t σ) (u : Thread) (op : Op) (r : R) (w : S) :
    Overtaken O t ({ σ with shared := w }.record (.point u op r) (.returning op r)) := by
  have hretries : retries t [(Event.point u op r : Event Thread Op R)] = 0 := rfl
  refine ⟨?_, fun op' loaded new r' hphase _ => ?_⟩
  · rw [retries_record, others_record, hretries]
    exact Nat.le_trans h.le (Nat.le_add_right _ _)
  · by_cases hu : t = u
    · subst hu
      have hphase' : Function.update σ.phase t (.returning op r) t = .swapping op' loaded new r' :=
        hphase
      rw [Function.update_self] at hphase'
      cases hphase'
    · have hone : others t [(Event.point u op r : Event Thread Op R)] = 1 := by
        simp [others, Ne.symm hu]
      rw [retries_record, others_record, hretries, hone]
      exact Nat.lt_succ_of_le h.le

theorem Overtaken.step (h : Overtaken O t σ) (hstep : Step O σ σ') : Overtaken O t σ' := by
  cases hstep with
  | call op hp => exact h.pass rfl rfl nofun
  | @load u op round new r hp hmethod hround =>
      refine ⟨h.le, fun op' loaded new' r' hphase hne => ?_⟩
      have hphase' : Function.update σ.phase u (.swapping op (O.cell σ.shared) new r) t =
          .swapping op' loaded new' r' :=
        hphase
      by_cases hu : t = u
      · subst hu
        rw [Function.update_self] at hphase'
        cases hphase'
        exact absurd rfl hne
      · rw [Function.update_of_ne hu] at hphase'
        exact h.lt op' loaded new' r' hphase' hne
  | @retry u op loaded new r hp hne =>
      by_cases hu : u = t
      · subst hu
        have hlost := h.lt op loaded new r hp hne
        refine ⟨?_, fun op' loaded' new' r' hphase _ => ?_⟩
        · have hone : retries u [(Event.retry u : Event Thread Op R)] = 1 := by simp [retries]
          rw [retries_record, others_record, hone]
          exact Nat.le_add_right_of_le hlost
        · have hphase' :
              Function.update σ.phase u (.loading op) u = .swapping op' loaded' new' r' := hphase
          rw [Function.update_self] at hphase'
          cases hphase'
      · refine h.pass ?_ rfl nofun
        simp [retries, hu]
  | decline hp hmethod hround => exact h.point _ _ _ σ.shared
  | store hp hmethod => exact h.point _ _ _ _
  | swap hp => exact h.point _ _ _ _
  | ret hp => exact h.pass rfl rfl nofun
  | environment hw =>
      refine ⟨h.le, fun op loaded new r hphase hne => h.lt op loaded new r hphase fun heq => hne ?_⟩
      exact (O.cell_environment hw).trans heq

end Overtaking

/-- **The loop is lock-free**: a thread tries again at most as often as operations of other threads
take effect. -/
theorem retries_le (h : Reaches O s σ) (t : Thread) : retries t σ.history ≤ others t σ.history := by
  have hovertaken : Overtaken O t σ := by
    induction h with
    | refl => exact ⟨Nat.le_refl _, nofun⟩
    | tail _ hstep ih => exact ih.step hstep
  exact hovertaken.le

end Runs

end CasLoop
