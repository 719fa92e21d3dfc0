import SlotBus.Foundation.AtomicProgram

/-!
# Hoare triples

What a program does that runs alone, in terms of what holds before and after it.

* `Triple M P p Q` — started where `P` holds, `p` can only end where `Q` holds of its result;
* `Triple.act`, `Triple.bind`, `Triple.bind_except` — the rules for programs;
* `Triple.of_confined` — the invariant rule.
-/

namespace AtomicProgram

variable {S : Signature} {Thread State Choice α β ε : Type}

/-- Partial correctness, whichever thread runs the program. -/
def Triple (M : Machine S Thread State Choice) (P : State → Prop) (p : Program S α)
    (Q : α → State → Prop) : Prop :=
  ∀ t s v s', P s → Runs M t p s v s' → Q v s'

namespace Triple

variable {M : Machine S Thread State Choice} {P P' : State → Prop} {p : Program S α}
    {Q Q' : α → State → Prop}

theorem mono (h : Triple M P p Q) (hP : ∀ s, P' s → P s) (hQ : ∀ v s, Q v s → Q' v s) :
    Triple M P' p Q' := by
  intro t s v s' hs hrun
  exact hQ v s' (h t s v s' (hP s hs) hrun)

theorem done {v : α} (h : ∀ s, P s → Q v s) : Triple M P (.done v) Q := by
  intro t s v' s' hs hrun
  obtain ⟨rfl, rfl⟩ := Runs.done_iff.mp hrun
  exact h _ hs

/-- One action, and then the rest. -/
theorem act {a : S.Action} {k : S.Answer a → Program S α} {R : S.Answer a → State → Prop}
    (hstep : ∀ t c s r s', P s → M.exec t a c s = some (r, s') → R r s')
    (hk : ∀ r, Triple M (R r) (k r) Q) :
    Triple M P (.act a k) Q := by
  intro t s v s' hs hrun
  obtain ⟨c, r, u, hx, hrest⟩ := Runs.act_iff.mp hrun
  exact hk r t u v s' (hstep t c s r u hs hx) hrest

/-- **Sequential composition.** -/
theorem bind {f : α → Program S β} {R : α → State → Prop} {final : β → State → Prop}
    (hp : Triple M P p R) (hf : ∀ v, Triple M (R v) (f v) final) : Triple M P (p >>= f) final := by
  intro t s v s' hs hrun
  obtain ⟨u, s'', hfirst, hrest⟩ := Runs.bind_iff.mp hrun
  exact hf u t s'' v s' (hp t s u s'' hs hfirst) hrest

/-- Sequential composition of programs that may fail. -/
theorem bind_except {p : ExceptT ε (Program S) α} {f : α → ExceptT ε (Program S) β}
    {R : α → State → Prop} {final : Except ε β → State → Prop}
    (hp : Triple M P p.run fun result s => match result with
          | .ok v => R v s
          | .error e => final (.error e) s)
    (hf : ∀ v, Triple M (R v) (f v).run final) : Triple M P (p >>= f).run final := by
  refine bind hp fun result => ?_
  cases result with
  | ok v => exact hf v
  | error e => exact done fun s hs => hs

/-- A program that cannot fail, as one that may. -/
theorem lift {final : Except ε α → State → Prop} (h : Triple M P p fun v s => final (.ok v) s) :
    Triple M P (liftM p : ExceptT ε (Program S) α).run final := by
  show Triple M P (p >>= fun v => .done (Except.ok v)) final
  exact bind h fun v => done fun s hs => hs

/-- **The invariant rule.**  What every action of a program keeps, the program keeps. -/
theorem of_confined {allowed : S.Action → Prop} (hp : p.Confined allowed)
    (hstep : ∀ t a c s r s', allowed a → M.exec t a c s = some (r, s') → P s → P s') :
    Triple M P p fun _ s => P s := by
  intro t s v s' hs hrun
  exact Runs.keeps hp (fun ha hx hs => hstep t _ _ _ _ _ ha hx hs) hrun hs

/-- A witness for the start that the program does not know. -/
theorem of_exists {ι : Type} {P : ι → State → Prop} (h : ∀ x, Triple M (P x) p Q) :
    Triple M (fun s => ∃ x, P x s) p Q := by
  intro t s v s' hs hrun
  obtain ⟨x, hx⟩ := hs
  exact h x t s v s' hx hrun

/-- A condition on the start that does not depend on the state. -/
theorem of_pure {c : Prop} (h : c → Triple M P p Q) : Triple M (fun s => c ∧ P s) p Q := by
  intro t s v s' hs hrun
  exact h hs.1 t s v s' hs.2 hrun

end Triple

end AtomicProgram
