import SlotBus.Effects
import SlotBus.Ledger

/-!
# The ledger of a run

The status word of a slot says what is being done with it, not by whom.  The history does: this file
reads the ledger off it, and which dispatch call's request each handler invocation was given.

* `owner` — the owner of every slot, from the successful compare-exchanges, the status stores and
  the handler invocations;
* `phase` — how far one thread has come, from its own actions only;
* `received` — the dispatch call whose request a handler invocation was given;
* `collected` — what the response watcher took from a slot last;
* `World.ledger` — the ledger.
-/

namespace SlotBus

open AtomicProgram

/-- The slot an entry passes on, and to whom. -/
def Entry.passes : Entry → Option (ℕ × (Owner → Owner))
  | ⟨.dispatch k, .compare_exchange i _ _, true⟩ => some (i, fun _ => .writing k)
  | ⟨.dispatch k, .store i v, _⟩ => some (i, fun _ => if v = SLOT_READY then .ready k else .free)
  | ⟨.receive l, .compare_exchange i _ _, true⟩ => some (i, fun
      | .ready k => .reading l k
      | o => o)
  | ⟨.receive _, .handle _ i _, h⟩ => some (i, fun
      | .reading _ k => .handling h k
      | o => o)
  | ⟨.receive _, .store i _, _⟩ => some (i, fun _ => .free)
  | ⟨.respond c, .store i v, _⟩ => some (i, fun
      | .handling h k => if v = SLOT_DONE then .done h k c else .free
      | o => o)
  | ⟨.watcher, .compare_exchange i _ _, true⟩ => some (i, fun _ => .free)
  | _ => none

/-- The owner of every slot. -/
def owner : List Entry → ℕ → Owner
  | [] => fun _ => .free
  | e :: log =>
      match e.passes with
      | some (i, f) => Function.update (owner log) i (f (owner log i))
      | none => owner log

/-- How an action of a thread carries it on: it claims a slot, publishes or releases it, keeps its
overflow region, registers its request, or fails to serialize before it has done anything. -/
def Entry.advance : Entry → Phase → Phase
  | ⟨_, .compare_exchange i _ _, true⟩, _ => .holding i
  | ⟨_, .store i v, _⟩, _ => if v = SLOT_FREE then .released i else .published i
  | ⟨_, .handle _ i _, _⟩, _ => .released i
  | ⟨_, .overflow_insert _ i _, _⟩, _ => .kept i
  | ⟨_, .pending_insert _ _, _⟩, .published i => .registered i
  | ⟨_, .pending_insert _ _, _⟩, .kept i => .registered i
  | ⟨_, .finish (.error (.Serialization _)), _⟩, .idle => .failed
  | _, p => p

/-- How far a thread with this history has come. -/
def progress : List Entry → Phase
  | [] => .idle
  | e :: log => e.advance (progress log)

/-- How far a thread has come. -/
def phase (log : List Entry) (t : Thread) : Phase := progress (history t log)

/-- The dispatch call whose request was given to invocation `h`. -/
def received (h : ℕ) : List Entry → Option ℕ
  | [] => none
  | ⟨.receive _, .handle _ i _, h'⟩ :: log =>
      if (h == (h' : ℕ)) then (owner log i).call else received h log
  | _ :: log => received h log

/-- The invocation, the dispatch call and the `send_response` call whose slot the watcher gave back
last. -/
def collected : List Entry → Option (ℕ × ℕ × ℕ)
  | [] => none
  | ⟨.watcher, .compare_exchange i _ _, true⟩ :: log =>
      match owner log i with
      | .done h k c => some (h, k, c)
      | _ => none
  | _ :: log => collected log

/-- The ledger of a world. -/
def World.ledger (w : World) : Ledger where
  owner := owner w.log
  phase := phase w.log
  slot_of n := w.invocations[n]?.map Invocation.slot
  invocation_of c := w.replies[c]?.map Reply.invocation

/-- The actions that pass no slot on. -/
def Action.Silent : Action → Prop
  | .compare_exchange _ _ _ | .store _ _ | .handle _ _ _ => False
  | _ => True

section Entries

variable {t u : Thread} {a : Action} {r : Answer a} {log : List Entry}

theorem phase_cons_self : phase (⟨t, a, r⟩ :: log) t = Entry.advance ⟨t, a, r⟩ (phase log t) := by
  simp only [phase, history_cons_self, progress]

theorem phase_cons_of_ne (h : u ≠ t) : phase (⟨u, a, r⟩ :: log) t = phase log t := by
  simp only [phase, history_cons_of_ne h]

theorem owner_silent (h : a.Silent) : owner (⟨t, a, r⟩ :: log) = owner log := by
  cases a <;> first | exact h.elim | (cases t <;> rfl)

theorem collected_silent (h : a.Silent) : collected (⟨t, a, r⟩ :: log) = collected log := by
  cases a <;> first | exact h.elim | (cases t <;> rfl)

/-- A compare-exchange that fails passes nothing on. -/
theorem owner_swap_failed {i expected new : ℕ} :
    owner (⟨t, .compare_exchange i expected new, false⟩ :: log) = owner log := by
  cases t <;> rfl

theorem received_of_ne_handle (h : ∀ w i q, a ≠ .handle w i q) (n : ℕ) :
    received n (⟨t, a, r⟩ :: log) = received n log := by
  cases a <;> first | (cases t <;> rfl) | exact absurd rfl (h _ _ _)

/-- Later invocations do not change what an earlier one was given. -/
theorem received_handle_of_ne {wk i : ℕ} {q : Request} {n h : ℕ} (hn : n ≠ h) :
    received n (⟨t, .handle wk i q, h⟩ :: log) = received n log := by
  cases t with
  | receive l => simp [received, hn]
  | _ => rfl

theorem collected_of_done {i h k c : ℕ} (ho : owner log i = .done h k c) (expected new : ℕ) :
    collected (⟨.watcher, .compare_exchange i expected new, true⟩ :: log) = some (h, k, c) := by
  show (match owner log i with
    | .done h k c => some (h, k, c)
    | _ => none) = _
  rw [ho]

theorem collected_of_ne_watcher (h : t ≠ .watcher) :
    collected (⟨t, a, r⟩ :: log) = collected log := by
  cases t <;> first | (cases a <;> rfl) | exact absurd rfl h

end Entries
end SlotBus
