import SlotBus.Foundation.SharedOwnership

/-!
# Who keeps a bus alive

The threads of a bus and of a worker end when `running` is cleared, and only `stop` and the drop of
the bus or worker clear it.  The response watcher owns clones of the parts of the bus; the receive
loop, and every handler that it calls, owns the worker itself.

* `BusState`, `WorkerState` — the owners of a bus and of a worker, and the steps that change them;
* `watcher_stops` — once the last handle of a bus is gone, its watchers end and release their parts;
* `threads_stop_iff` — those of a worker do so exactly if there is no receive loop left to stop.
-/

namespace SlotBus

open SharedOwnership

/-- A region, or the overflow regions of a map. -/
inductive Mapping where
  | mapped
  | unmapped
deriving DecidableEq

/-- What the fields of a `SlotBus` or a `SlotWorker` refer to. -/
structure Endpoint where
  running : Bool
  signalled : Bool
  region : Arc Mapping
  overflow_regions : Arc Mapping
deriving DecidableEq

namespace Endpoint

def create : Endpoint := ⟨true, false, .new .mapped, .new .mapped⟩

/-- One owner of the two parts lets go of them. -/
def release_parts (e : Endpoint) : Endpoint :=
  { e with
    region := e.region.release fun _ => .unmapped
    overflow_regions := e.overflow_regions.release fun _ => .unmapped }

def clone_parts (e : Endpoint) : Endpoint :=
  { e with region := e.region.clone, overflow_regions := e.overflow_regions.clone }

/-- Clear the flag and wake the thread that waits. -/
def stop (e : Endpoint) : Endpoint := { e with running := false, signalled := true }

/-- `Drop`, and then the fields. -/
def drop (e : Endpoint) : Endpoint := e.stop.release_parts

end Endpoint

/-- Where a background thread stands; only a receive loop calls handlers. -/
inductive LoopPhase where
  | checking
  | waiting
  | scanning
  | handling
  | ended
deriving DecidableEq

/-! ### The hub -/

/-- A bus, owned by the handles of the user, and its response watchers. -/
structure BusState where
  bus : Arc Endpoint
  watchers : List LoopPhase
deriving DecidableEq

inductive BusAction where
  | clone
  | drop
  | stop
  | start_response_watcher
  /-- A watcher reads `running`. -/
  | load (i : ℕ)
  /-- Its wait ends, by a signal or by the timeout. -/
  | wake (i : ℕ)
  /-- It has looked at every slot. -/
  | rescan (i : ℕ)
  /-- It panics, and its captures are dropped. -/
  | unwind (i : ℕ)
deriving DecidableEq

namespace BusState

def create : BusState := ⟨.new .create, []⟩

/-- A change of what the bus refers to. -/
def update (s : BusState) (f : Endpoint → Endpoint) : BusState :=
  { s with bus := { s.bus with value := f s.bus.value } }

def move (s : BusState) (i : ℕ) (phase : LoopPhase) : BusState :=
  { s with watchers := s.watchers.set i phase }

def step (s : BusState) : BusAction → Option BusState
  | .clone => if s.bus.strong = 0 then none else some { s with bus := s.bus.clone }
  | .drop => if s.bus.strong = 0 then none else some { s with bus := s.bus.release Endpoint.drop }
  | .stop => if s.bus.strong = 0 then none else some (s.update Endpoint.stop)
  | .start_response_watcher =>
      if s.bus.strong = 0 then none
      else some { s.update Endpoint.clone_parts with watchers := s.watchers ++ [.checking] }
  | .load i => match s.watchers[i]? with
      | some .checking =>
          if s.bus.value.running then some (s.move i .waiting)
          else some ((s.update Endpoint.release_parts).move i .ended)
      | _ => none
  | .wake i => match s.watchers[i]? with
      | some .waiting => some ((s.update fun e => { e with signalled := false }).move i .scanning)
      | _ => none
  | .rescan i => match s.watchers[i]? with
      | some .scanning => some (s.move i .checking)
      | _ => none
  | .unwind i => match s.watchers[i]? with
      | some .scanning => some ((s.update Endpoint.release_parts).move i .ended)
      | _ => none

/-- What happens, one action after the other. -/
def run (s : BusState) (history : List BusAction) : Option BusState := history.foldlM step s

end BusState

/-! ### The worker -/

/-- A worker, the handles to it that the user holds, and its receive loops, which own it too. -/
structure WorkerState where
  worker : Arc Endpoint
  user : ℕ
  loops : List LoopPhase
deriving DecidableEq

inductive WorkerAction where
  | clone
  | drop
  | stop
  /-- A handle moves into a new thread. -/
  | start_receive_loop
  | load (i : ℕ)
  | wake (i : ℕ)
  /-- The handler is called with a clone of the worker. -/
  | invoke (i : ℕ)
  /-- The handler returns; it drops its clone or has passed it on. -/
  | finish (i : ℕ) (keep : Bool)
  | rescan (i : ℕ)
  | unwind (i : ℕ)
deriving DecidableEq

namespace WorkerState

def create : WorkerState := ⟨.new .create, 1, []⟩

def update (s : WorkerState) (f : Endpoint → Endpoint) : WorkerState :=
  { s with worker := { s.worker with value := f s.worker.value } }

def move (s : WorkerState) (i : ℕ) (phase : LoopPhase) : WorkerState :=
  { s with loops := s.loops.set i phase }

/-- One owner of the worker lets go of it. -/
def release (s : WorkerState) : WorkerState := { s with worker := s.worker.release Endpoint.drop }

/-- Somebody outside the receive loops can use the worker. -/
def Held (s : WorkerState) : Prop := 0 < s.user ∨ .handling ∈ s.loops

instance (s : WorkerState) : Decidable s.Held := inferInstanceAs (Decidable (_ ∨ _))

def step (s : WorkerState) : WorkerAction → Option WorkerState
  | .clone => if s.Held then some { s with worker := s.worker.clone, user := s.user + 1 } else none
  | .drop => if 0 < s.user then some { s.release with user := s.user - 1 } else none
  | .stop => if s.Held then some (s.update Endpoint.stop) else none
  | .start_receive_loop =>
      if 0 < s.user then some
        { s with user := s.user - 1, loops := s.loops ++ [.checking] } else none
  | .load i => match s.loops[i]? with
      | some .checking =>
          if s.worker.value.running then some (s.move i .waiting) else some
            (s.release.move i .ended)
      | _ => none
  | .wake i => match s.loops[i]? with
      | some .waiting => some ((s.update fun e => { e with signalled := false }).move i .scanning)
      | _ => none
  | .invoke i => match s.loops[i]? with
      | some .scanning => some { s.move i .handling with worker := s.worker.clone }
      | _ => none
  | .finish i keep => match s.loops[i]? with
      | some .handling =>
          if keep then some { s.move i .scanning with user := s.user + 1 } else some
            (s.release.move i .scanning)
      | _ => none
  | .rescan i => match s.loops[i]? with
      | some .scanning => some (s.move i .checking)
      | _ => none
  | .unwind i => match s.loops[i]? with
      | some .scanning => some (s.release.move i .ended)
      | some .handling => some (s.release.release.move i .ended)
      | _ => none

def run (s : WorkerState) (history : List WorkerAction) : Option WorkerState :=
  history.foldlM step s

end WorkerState

/-! ### What keeps the parts of a bus -/

namespace Endpoint

/-- The two parts have `n` owners, and are unmapped once they have none. -/
structure Owned (n : ℕ) (e : Endpoint) : Prop where
  region_strong : e.region.strong = n
  region : e.region.Tracks (· = .mapped) (· = .unmapped)
  overflow_strong : e.overflow_regions.strong = n
  overflow : e.overflow_regions.Tracks (· = .mapped) (· = .unmapped)

variable {e : Endpoint} {n : ℕ}

theorem Owned.create : Owned 1 create := ⟨rfl, .new rfl, rfl, .new rfl⟩

theorem Owned.clone_parts (h : e.Owned n) (hn : n ≠ 0) : e.clone_parts.Owned (n + 1) := by
  refine ⟨?_, ?_, ?_, ?_⟩
  · exact congrArg (· + 1) h.region_strong
  · exact h.region.clone (h.region_strong ▸ hn)
  · exact congrArg (· + 1) h.overflow_strong
  · exact h.overflow.clone (h.overflow_strong ▸ hn)

theorem Owned.release_parts (h : e.Owned n) (hn : n ≠ 0) : e.release_parts.Owned (n - 1) := by
  refine ⟨?_, ?_, ?_, ?_⟩
  · exact Arc.release_strong.trans (congrArg (· - 1) h.region_strong)
  · exact h.region.release (h.region_strong ▸ hn) fun _ _ => rfl
  · exact Arc.release_strong.trans (congrArg (· - 1) h.overflow_strong)
  · exact h.overflow.release (h.overflow_strong ▸ hn) fun _ _ => rfl

/-- The flag and the event are no parts. -/
theorem Owned.flags (h : e.Owned n) (running signalled : Bool) :
    Owned n { e with running := running, signalled := signalled } :=
  ⟨h.region_strong, h.region, h.overflow_strong, h.overflow⟩

theorem Owned.unmapped (h : e.Owned 0) :
    e.region.value = .unmapped ∧ e.overflow_regions.value = .unmapped :=
  ⟨h.region.gone h.region_strong, h.overflow.gone h.overflow_strong⟩

end Endpoint

/-- What a watcher owns of the parts of its bus. -/
def LoopPhase.live : LoopPhase → ℕ
  | .ended => 0
  | _ => 1

theorem LoopPhase.live_eq_zero {p : LoopPhase} : p.live = 0 ↔ p = .ended := by
  cases p <;> decide

/-- What a receive loop owns of its worker; a handler has a clone of its own. -/
def LoopPhase.holds : LoopPhase → ℕ
  | .ended => 0
  | .handling => 2
  | _ => 1

theorem LoopPhase.holds_eq_zero {p : LoopPhase} : p.holds = 0 ↔ p = .ended := by
  cases p <;> decide

namespace BusState

variable {s t : BusState}

/-- The owners of the parts: the bus, as long as it has a handle, and its watchers. -/
structure Sound (s : BusState) : Prop where
  owned : s.bus.value.Owned ((if s.bus.strong = 0 then 0 else 1) + weight LoopPhase.live s.watchers)
  stopped : s.bus.strong = 0 → s.bus.value.running = false

theorem Sound.create : Sound create := ⟨Endpoint.Owned.create, fun h => absurd h Nat.one_ne_zero⟩

theorem Sound.move (h : s.Sound) {i : ℕ} {phase phase' : LoopPhase}
    (hi : s.watchers[i]? = some phase) (hlive : phase.live = phase'.live) :
    (s.move i phase').Sound := by
  have hset := weight_set (w := LoopPhase.live) (u := phase') hi
  have hsame :
      weight LoopPhase.live (s.watchers.set i phase') = weight LoopPhase.live s.watchers := by omega
  constructor
  · show s.bus.value.Owned (_ + weight LoopPhase.live (s.watchers.set i phase'))
    rw [hsame]
    exact h.owned
  · exact h.stopped

/-- A watcher ends, and its captures are dropped. -/
theorem Sound.exit (h : s.Sound) {i : ℕ} {phase : LoopPhase} (hi : s.watchers[i]? = some phase)
    (hlive : phase.live = 1) : ((s.update Endpoint.release_parts).move i .ended).Sound := by
  have hset := weight_set (w := LoopPhase.live) (u := .ended) hi
  have hended : LoopPhase.live .ended = 0 := rfl
  have hpos : weight LoopPhase.live s.watchers ≠ 0 := by omega
  constructor
  · have hrelease := h.owned.release_parts (by omega)
    show s.bus.value.release_parts.Owned (_ + weight LoopPhase.live (s.watchers.set i .ended))
    rw [show weight LoopPhase.live (s.watchers.set i .ended) =
      weight LoopPhase.live s.watchers - 1 by omega,
      ← Nat.add_sub_assoc (Nat.one_le_iff_ne_zero.mpr hpos)]
    exact hrelease
  · exact h.stopped

/-- The bus has another owner count. -/
theorem Sound.owners {bus : Arc Endpoint} {watchers : List LoopPhase}
    (howned : bus.value.Owned (1 + weight LoopPhase.live watchers)) (hne : bus.strong ≠ 0) :
    Sound ⟨bus, watchers⟩ := by
  constructor
  · show bus.value.Owned ((if bus.strong = 0 then 0 else 1) + weight LoopPhase.live watchers)
    rw [if_neg hne]
    exact howned
  · intro hzero
    exact absurd hzero hne

theorem Sound.drop (h : s.Sound) (hne : s.bus.strong ≠ 0) :
    Sound { s with bus := s.bus.release Endpoint.drop } := by
  have howned := h.owned
  rw [if_neg hne] at howned
  by_cases hlast : s.bus.strong = 1
  · rw [Arc.release, if_pos hlast]
    have hrelease := (howned.flags false true).release_parts (by omega)
    constructor
    · show s.bus.value.drop.Owned (0 + weight LoopPhase.live s.watchers)
      rw [show 0 + weight LoopPhase.live s.watchers = 1 + weight LoopPhase.live s.watchers - 1 by
        omega]
      exact hrelease
    · intro _
      rfl
  · rw [Arc.release, if_neg hlast]
    exact Sound.owners howned (by show s.bus.strong - 1 ≠ 0; omega)

theorem Sound.step (h : s.Sound) {a : BusAction} (hs : s.step a = some t) : t.Sound := by
  cases a with
  | clone =>
      obtain ⟨hne, ⟨⟩⟩ := Option.ite_none_left_eq_some.mp hs
      have howned := h.owned
      rw [if_neg hne] at howned
      exact Sound.owners howned (Nat.succ_ne_zero _)
  | drop =>
      obtain ⟨hne, ⟨⟩⟩ := Option.ite_none_left_eq_some.mp hs
      exact h.drop hne
  | stop =>
      obtain ⟨hne, ⟨⟩⟩ := Option.ite_none_left_eq_some.mp hs
      have howned := h.owned
      rw [if_neg hne] at howned
      exact Sound.owners (howned.flags false true) hne
  | start_response_watcher =>
      obtain ⟨hne, ⟨⟩⟩ := Option.ite_none_left_eq_some.mp hs
      have hclone := h.owned.clone_parts (by rw [if_neg hne]; omega)
      rw [if_neg hne, Nat.add_assoc] at hclone
      refine Sound.owners ?_ hne
      rw [weight_append]
      exact hclone
  | load i =>
      simp only [BusState.step] at hs
      split at hs
      next hi =>
        split at hs
        next => exact Option.some.inj hs ▸ h.move hi rfl
        next => exact Option.some.inj hs ▸ h.exit hi rfl
      next => cases hs
  | wake i =>
      simp only [BusState.step] at hs
      split at hs
      next hi =>
        have hcalm : Sound (s.update fun e => { e with signalled := false }) :=
          ⟨h.owned.flags _ false, h.stopped⟩
        exact Option.some.inj hs ▸ hcalm.move hi rfl
      next => cases hs
  | rescan i =>
      simp only [BusState.step] at hs
      split at hs
      next hi => exact Option.some.inj hs ▸ h.move hi rfl
      next => cases hs
  | unwind i =>
      simp only [BusState.step] at hs
      split at hs
      next hi => exact Option.some.inj hs ▸ h.exit hi rfl
      next => cases hs

/-- The parts of a bus have their owners in every state that it gets to. -/
theorem Sound.run (h : s.Sound) {history : List BusAction} (hs : s.run history = some t) :
    t.Sound := by
  induction history generalizing s with
  | nil => exact Option.some.inj hs ▸ h
  | cons a history ih =>
      obtain ⟨u, hstep, hrest⟩ := Option.bind_eq_some_iff.mp hs
      exact ih (h.step hstep) hrest

end BusState

/-! ### What keeps a worker -/

namespace Endpoint

/-- A worker that nobody has stopped. -/
structure Intact (e : Endpoint) : Prop where
  running : e.running = true
  owned : e.Owned 1

/-- A worker that has been dropped. -/
structure Gone (e : Endpoint) : Prop where
  running : e.running = false
  owned : e.Owned 0

theorem Intact.drop {e : Endpoint} (h : e.Intact) : e.drop.Gone :=
  ⟨rfl, (h.owned.flags false true).release_parts Nat.one_ne_zero⟩

end Endpoint

/-- The receive loop has ended by a panic. -/
def WorkerAction.is_unwind : WorkerAction → Bool
  | .unwind _ => true
  | _ => false

namespace WorkerState

variable {s t : WorkerState}

/-- The owners of a worker that is not stopped: the handles of the user, the receive loops and their
handlers. -/
structure Sound (s : WorkerState) : Prop where
  count : s.worker.strong = s.user + weight LoopPhase.holds s.loops
  worker : s.worker.Tracks Endpoint.Intact Endpoint.Gone

theorem Sound.create : Sound create := ⟨rfl, .new ⟨rfl, .create⟩⟩

/-- A receive loop that has not ended owns the worker. -/
theorem Sound.owner (h : s.Sound) {i : ℕ} {phase : LoopPhase} (hi : s.loops[i]? = some phase)
    (hne : phase ≠ .ended) : s.worker.strong ≠ 0 := by
  have hle := le_weight (w := LoopPhase.holds) hi
  have hpos : phase.holds ≠ 0 := fun h => hne (LoopPhase.holds_eq_zero.mp h)
  have hcount := h.count
  omega

/-- Somebody who uses the worker owns it. -/
theorem Sound.held (h : s.Sound) (hheld : s.Held) : s.worker.strong ≠ 0 := by
  have hcount := h.count
  cases hheld with
  | inl huser => omega
  | inr hmem =>
      obtain ⟨i, hi⟩ := List.getElem?_of_mem hmem
      exact h.owner hi nofun

/-- A receive loop moves on, and the owners with it. -/
theorem Sound.move {worker : Arc Endpoint} {user i : ℕ} {phase phase' : LoopPhase} (h : s.Sound)
    (hi : s.loops[i]? = some phase) (htrack : worker.Tracks Endpoint.Intact Endpoint.Gone)
    (hcount : worker.strong + s.user + phase.holds = s.worker.strong + user + phase'.holds) :
    Sound ⟨worker, user, s.loops.set i phase'⟩ := by
  have hset := weight_set (w := LoopPhase.holds) (u := phase') hi
  have hold := h.count
  constructor
  · show worker.strong = user + weight LoopPhase.holds (s.loops.set i phase')
    omega
  · exact htrack

/-- A receive loop has started or has ended by a panic. -/
def Counted (a : WorkerAction) (s t : WorkerState) : Prop :=
  weight LoopPhase.live t.loops + (if a.is_unwind then 1 else 0) =
    weight LoopPhase.live s.loops + (if a = .start_receive_loop then 1 else 0)

theorem Counted.stay {a : WorkerAction} {i : ℕ} {phase phase' : LoopPhase}
    (hi : s.loops[i]? = some phase) (ht : t.loops = s.loops.set i phase')
    (hlive : phase.live = phase'.live) (hunwind : a.is_unwind = false)
    (hstart : a ≠ .start_receive_loop) : Counted a s t := by
  have hset := weight_set (w := LoopPhase.live) (u := phase') hi
  unfold Counted
  rw [ht, hunwind, if_neg hstart]
  show weight LoopPhase.live (s.loops.set i phase') + 0 = weight LoopPhase.live s.loops + 0
  omega

theorem Sound.step (h : s.Sound) {a : WorkerAction} (hs : s.step a = some t) (ha : a ≠ .stop) :
    t.Sound ∧ Counted a s t := by
  have hcount := h.count
  have hdrop : ∀ e : Endpoint, e.Intact → e.drop.Gone := fun _ he => he.drop
  cases a with
  | clone =>
      obtain ⟨hheld, ⟨⟩⟩ := Option.ite_none_right_eq_some.mp hs
      refine ⟨⟨?_, h.worker.clone (h.held hheld)⟩, rfl⟩
      show s.worker.strong + 1 = s.user + 1 + weight LoopPhase.holds s.loops
      omega
  | drop =>
      obtain ⟨huser, ⟨⟩⟩ := Option.ite_none_right_eq_some.mp hs
      refine ⟨⟨?_, h.worker.release (h.held (.inl huser)) hdrop⟩, rfl⟩
      show (s.worker.release Endpoint.drop).strong = s.user - 1 + weight LoopPhase.holds s.loops
      rw [Arc.release_strong]
      omega
  | stop => exact absurd rfl ha
  | start_receive_loop =>
      obtain ⟨huser, ⟨⟩⟩ := Option.ite_none_right_eq_some.mp hs
      refine ⟨⟨?_, h.worker⟩, ?_⟩
      · show s.worker.strong = s.user - 1 + weight LoopPhase.holds (s.loops ++ [.checking])
        rw [weight_append, show LoopPhase.holds .checking = 1 from rfl]
        omega
      · show weight LoopPhase.live (s.loops ++ [.checking]) + 0 = weight LoopPhase.live s.loops + 1
        rw [weight_append]
        rfl
  | load i =>
      simp only [WorkerState.step] at hs
      split at hs
      next hi =>
        -- the loop owns the worker, so nothing has cleared the flag
        rw [if_pos (h.worker.held (h.owner hi nofun)).running] at hs
        obtain ⟨⟩ := hs
        exact ⟨h.move hi h.worker rfl, .stay hi rfl rfl rfl nofun⟩
      next => cases hs
  | wake i =>
      simp only [WorkerState.step] at hs
      split at hs
      next hi =>
        obtain ⟨⟩ := hs
        have hne := h.owner hi nofun
        have hintact := h.worker.held hne
        have hcalm : Arc.Tracks Endpoint.Intact Endpoint.Gone
            { s.worker with value := { s.worker.value with signalled := false } } :=
          ⟨fun _ => ⟨hintact.running, hintact.owned.flags _ _⟩, fun hzero => absurd hzero hne⟩
        exact ⟨h.move hi hcalm rfl, .stay hi rfl rfl rfl nofun⟩
      next => cases hs
  | invoke i =>
      simp only [WorkerState.step] at hs
      split at hs
      next hi =>
        obtain ⟨⟩ := hs
        have hcount' : s.worker.strong + 1 + s.user + 1 = s.worker.strong + s.user + 2 := by omega
        exact ⟨h.move hi (h.worker.clone (h.owner hi nofun)) hcount', .stay hi rfl rfl rfl nofun⟩
      next => cases hs
  | finish i keep =>
      simp only [WorkerState.step] at hs
      split at hs
      next hi =>
        have hne := h.owner hi nofun
        cases keep with
        | true =>
            obtain ⟨⟩ := hs
            have hcount' : s.worker.strong + s.user + 2 = s.worker.strong + (s.user + 1) + 1 := by
              omega
            exact ⟨h.move hi h.worker hcount', .stay hi rfl rfl rfl nofun⟩
        | false =>
            obtain ⟨⟩ := hs
            have hcount' :
                (s.worker.release Endpoint.drop).strong + s.user + 2 =
                s.worker.strong + s.user + 1 := by
              rw [Arc.release_strong]
              omega
            exact ⟨h.move hi (h.worker.release hne hdrop) hcount', .stay hi rfl rfl rfl nofun⟩
      next => cases hs
  | rescan i =>
      simp only [WorkerState.step] at hs
      split at hs
      next hi =>
        obtain ⟨⟩ := hs
        exact ⟨h.move hi h.worker rfl, .stay hi rfl rfl rfl nofun⟩
      next => cases hs
  | unwind i =>
      simp only [WorkerState.step] at hs
      split at hs
      next hi =>
        obtain ⟨⟩ := hs
        have hne := h.owner hi nofun
        have hcount' :
            (s.worker.release Endpoint.drop).strong + s.user + 1 =
            s.worker.strong + s.user + 0 := by
          rw [Arc.release_strong]
          omega
        exact ⟨h.move hi (h.worker.release hne hdrop) hcount', weight_set hi⟩
      next hi =>
        obtain ⟨⟩ := hs
        have hne := h.owner hi nofun
        -- the clone of the handler goes first, and then that of the loop
        have htwo : 2 ≤ s.worker.strong := by
          have hle : 2 ≤ weight LoopPhase.holds s.loops := le_weight (w := LoopPhase.holds) hi
          omega
        have hone := h.worker.release hne hdrop
        have hne' : (s.worker.release Endpoint.drop).strong ≠ 0 := by
          rw [Arc.release_strong]
          omega
        have hcount' :
            ((s.worker.release Endpoint.drop).release Endpoint.drop).strong + s.user + 2 =
            s.worker.strong + s.user + 0 := by
          rw [Arc.release_strong, Arc.release_strong]
          omega
        exact ⟨h.move hi (hone.release hne' hdrop) hcount', weight_set hi⟩
      next => cases hs

/-- In a history without `stop`, the receive loops that are left are those that were started and
have not panicked. -/
theorem Sound.run (h : s.Sound) {history : List WorkerAction} (hs : s.run history = some t)
    (hstop : .stop ∉ history) :
    t.Sound ∧ weight LoopPhase.live t.loops + history.countP WorkerAction.is_unwind =
      weight LoopPhase.live s.loops + history.count .start_receive_loop := by
  induction history generalizing s with
  | nil =>
      obtain rfl := Option.some.inj hs
      exact ⟨h, rfl⟩
  | cons a history ih =>
      obtain ⟨u, hstep, hrest⟩ := Option.bind_eq_some_iff.mp hs
      obtain ⟨hu, hone⟩ := h.step hstep fun ha => hstop (ha ▸ List.mem_cons_self)
      obtain ⟨ht, hmany⟩ := ih hu hrest fun hmem => hstop (List.mem_cons_of_mem a hmem)
      refine ⟨ht, ?_⟩
      unfold Counted at hone
      rw [List.countP_cons, List.count_cons]
      simp only [beq_iff_eq]
      omega

end WorkerState

/-! ### When the threads end -/

/-- The threads of an endpoint end: the flag is cleared, so that the next check of each thread ends
it, and the regions are released once all threads have ended. -/
structure Endpoint.Stopped (e : Endpoint) (threads : List LoopPhase) : Prop where
  running : e.running = false
  released : (∀ p ∈ threads, p = .ended) → e.region.value = .unmapped ∧
    e.overflow_regions.value = .unmapped

/-- The last handle of a bus is gone: its watchers end. -/
theorem BusState.Sound.watcher_stops {s : BusState} (h : s.Sound) (hgone : s.bus.strong = 0) :
    s.bus.value.Stopped s.watchers := by
  constructor
  · exact h.stopped hgone
  · intro hended
    have hzero : weight LoopPhase.live s.watchers = 0 :=
      weight_eq_zero_iff.mpr fun p hp => LoopPhase.live_eq_zero.mpr (hended p hp)
    have howned := h.owned
    rw [if_pos hgone, hzero] at howned
    exact howned.unmapped

/-- Nobody uses a worker any more: the thread ends exactly if there is none. -/
theorem WorkerState.Sound.stops_iff {s : WorkerState} (h : s.Sound) (hgone : ¬s.Held) :
    s.worker.value.Stopped s.loops ↔ weight LoopPhase.live s.loops = 0 := by
  have hcount := h.count
  have huser : s.user = 0 := Nat.eq_zero_of_not_pos fun hpos => hgone (.inl hpos)
  constructor
  · intro hstopped
    have hzero : s.worker.strong = 0 := by
      by_contra hne
      have hrunning := (h.worker.held hne).running
      rw [hstopped.running] at hrunning
      cases hrunning
    apply weight_eq_zero_iff.mpr
    intro p hp
    have hholds := weight_eq_zero_iff.mp (by omega : weight LoopPhase.holds s.loops = 0) p hp
    exact LoopPhase.live_eq_zero.mpr (LoopPhase.holds_eq_zero.mp hholds)
  · intro hlive
    have hended : ∀ p ∈ s.loops, p = .ended := fun p hp =>
      LoopPhase.live_eq_zero.mp (weight_eq_zero_iff.mp hlive p hp)
    have hzero : weight LoopPhase.holds s.loops = 0 :=
      weight_eq_zero_iff.mpr fun p hp => LoopPhase.holds_eq_zero.mpr (hended p hp)
    have hdropped := h.worker.gone (by omega)
    exact ⟨hdropped.running, fun _ => hdropped.owned.unmapped⟩

/-- **Dropping every handle stops the threads of a bus, and those of a worker only if none is
left.**  In every state that a bus gets to without handles, its watchers end.  In every state that a
worker gets to without handles and running handlers, and without `stop`, its receive loops end
exactly if every loop that was started has panicked. -/
theorem threads_stop_iff (bus_history : List BusAction) (history : List WorkerAction) :
    (∀ s : BusState, BusState.create.run bus_history = some s → s.bus.strong = 0 →
      s.bus.value.Stopped s.watchers ∧
        ∀ i t, s.step (.load i) = some t → t.watchers[i]? = some .ended) ∧
    ∀ s : WorkerState, WorkerState.create.run history = some s → .stop ∉ history → ¬s.Held →
      (s.worker.value.Stopped s.loops ↔
        history.count .start_receive_loop = history.countP WorkerAction.is_unwind) := by
  constructor
  · intro s hrun hgone
    have hstopped := (BusState.Sound.create.run hrun).watcher_stops hgone
    refine ⟨hstopped, ?_⟩
    intro i t hload
    simp only [BusState.step] at hload
    split at hload
    next hi =>
      rw [if_neg (by rw [hstopped.running]; exact Bool.false_ne_true)] at hload
      obtain ⟨⟩ := hload
      have hlt : i < s.watchers.length := (List.getElem?_eq_some_iff.mp hi).1
      exact List.getElem?_set_self hlt
    next => cases hload
  · intro s hrun hstop hgone
    obtain ⟨hsound, hlive⟩ := WorkerState.Sound.create.run hrun hstop
    have hzero : weight LoopPhase.live WorkerState.create.loops = 0 := rfl
    rw [hsound.stops_iff hgone]
    omega

theorem threads_stop_small :
    (∃ s, BusState.create.run [.start_response_watcher, .load 0, .drop] = some s ∧
      s.bus.value.Stopped s.watchers) ∧
    (∃ s, WorkerState.create.run [.start_receive_loop, .load 0, .wake 0, .invoke 0, .unwind 0] =
      some s ∧
      s.worker.value.Stopped s.loops) ∧
    ∃ s, WorkerState.create.run [.start_receive_loop, .load 0, .wake 0, .invoke 0,
      .finish 0 false] = some s ∧
      ¬s.worker.value.Stopped s.loops := by
  refine ⟨⟨_, rfl, ?_⟩, ⟨_, rfl, ?_⟩, ⟨_, rfl, ?_⟩⟩
  · exact ((threads_stop_iff [.start_response_watcher, .load 0, .drop] []).1 _ rfl (by decide)).1
  · have hiff :=
      (threads_stop_iff [] [.start_receive_loop, .load 0, .wake 0, .invoke 0, .unwind 0]).2 _ rfl
      (by decide) (by decide)
    exact hiff.mpr (by decide)
  · have hiff :=
      (threads_stop_iff [] [.start_receive_loop, .load 0, .wake 0, .invoke 0, .finish 0 false]).2
      _ rfl
      (by decide) (by decide)
    intro hstopped
    exact absurd (hiff.mp hstopped) (by decide)

/-- A worker whose only handle has moved into its receive loop: the loop waits, and nobody can stop
it. -/
theorem receive_loop_outlives_handles :
    ¬∀ (history : List WorkerAction) (s : WorkerState), WorkerState.create.run history = some s →
      .stop ∉ history → ¬s.Held → s.worker.value.running = false := by
  intro hall
  have hfalse := hall [.start_receive_loop, .load 0] ⟨.new .create, 0, [.waiting]⟩
    (by decide) (by decide) (by decide)
  cases hfalse

end SlotBus
