import SlotBus.Foundation.AtomicProgram

/-!
# Typestates

A typestate follows the actions of one thread and says which action may come next.  What a program
does in which order is checked against it once, and holds however the threads are interleaved.

* `Keeps A post q p` — from typestate `q`, the program `p` performs allowed actions only, and `post`
  holds of its result and the typestate it ends in;
* `Keeps.bind`, `Keeps.of_confined` — the rules for programs;
* `Typestate.after` — the typestate of a thread with a given history.
-/

namespace AtomicProgram

variable {S : Signature} {Q α β ε : Type}

/-- What the actions of a thread so far allow it to do next. -/
structure Typestate (S : Signature) (Q : Type) where
  allowed : Q → S.Action → Prop
  next : Q → (a : S.Action) → S.Answer a → Q

namespace Typestate

variable (A : Typestate S Q)

/-- The program keeps to the typestate, whatever the answers. -/
def Keeps (post : α → Q → Prop) : Q → Program S α → Prop
  | q, .done v => post v q
  | q, .act a k => A.allowed q a ∧ ∀ r, Keeps post (A.next q a r) (k r)

variable {A} {post other : α → Q → Prop} {q : Q} {p : Program S α}

theorem Keeps.mono (h : A.Keeps post q p) (hpost : ∀ v q, post v q → other v q) :
    A.Keeps other q p := by
  induction p generalizing q with
  | done v => exact hpost v q h
  | act a k ih => exact ⟨h.1, fun r => ih r (h.2 r)⟩

/-- **Sequential composition.** -/
theorem Keeps.bind {f : α → Program S β} {final : β → Q → Prop}
    (h : A.Keeps (fun v q => A.Keeps final q (f v)) q p) : A.Keeps final q (p >>= f) := by
  induction p generalizing q with
  | done v => exact h
  | act a k ih => exact ⟨h.1, fun r => ih r (h.2 r)⟩

/-- Sequential composition of programs that may fail. -/
theorem Keeps.bind_except {p : ExceptT ε (Program S) α} {f : α → ExceptT ε (Program S) β}
    {final : Except ε β → Q → Prop}
    (h : A.Keeps (fun result q => match result with
      | .ok v => A.Keeps final q (f v).run
      | .error e => final (.error e) q) q p.run) : A.Keeps final q (p >>= f).run := by
  refine Keeps.bind (h.mono fun result q hq => ?_)
  cases result with
  | ok v => exact hq
  | error e => exact hq

/-- A program that cannot fail, as one that may. -/
theorem Keeps.lift {final : Except ε α → Q → Prop} (h : A.Keeps (fun v q => final (.ok v) q) q p) :
    A.Keeps final q (liftM p : ExceptT ε (Program S) α).run := by
  show A.Keeps final q (p >>= fun v => .done (Except.ok v))
  exact Keeps.bind h

/-- A program of actions that are allowed and do not change the typestate. -/
theorem Keeps.of_confined {calm : S.Action → Prop} (hp : p.Confined calm)
    (hcalm : ∀ a, calm a → A.allowed q a ∧ ∀ r, A.next q a r = q) (hpost : ∀ v, post v q) :
    A.Keeps post q p := by
  induction p with
  | done v => exact hpost v
  | act a k ih =>
      obtain ⟨hallowed, hnext⟩ := hcalm a hp.1
      exact ⟨hallowed, fun r => (hnext r).symm ▸ ih r (hp.2 r)⟩

end Typestate
end AtomicProgram
