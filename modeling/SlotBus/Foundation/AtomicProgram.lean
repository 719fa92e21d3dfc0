import Mathlib

/-!
# Programs of atomic actions

A program is a finite tree of **atomic actions**: each node performs one action on a shared state
and continues with the answer.  The tree is the whole of the program's behaviour, so the same
program can be executed alone (`Runs`) or one action at a time between the actions of other threads.

* `Program S α` — programs over a signature `S`, with the monad of sequential composition;
* `Program.Confined` — every action a program may ever perform satisfies a predicate, whatever the
  answers;
* `Machine S` — what the actions do to a state, with a scheduler's choice for each of them;
* `Runs` — a complete execution without interference, and `Machine.simulate`, which computes one.
-/

namespace AtomicProgram

/-- The atomic actions of a system, and the type of the answer each of them gives. -/
structure Signature where
  Action : Type
  Answer : Action → Type

/-- A program: a result, or an action with a continuation for each of its answers. -/
inductive Program (S : Signature) (α : Type) : Type where
  | done : α → Program S α
  | act : (a : S.Action) → (S.Answer a → Program S α) → Program S α

namespace Program

variable {S : Signature} {α β γ : Type}

/-- Sequential composition. -/
def bind : Program S α → (α → Program S β) → Program S β
  | .done v, f => f v
  | .act a k, f => .act a fun r => (k r).bind f

instance : Monad (Program S) where
  pure := .done
  bind := Program.bind

/-- The program that performs one action and returns its answer. -/
def perform (a : S.Action) : Program S (S.Answer a) := .act a .done

@[simp] theorem bind_done (v : α) (f : α → Program S β) : (done v >>= f) = f v := rfl

@[simp] theorem bind_pure (v : α) (f : α → Program S β) : ((pure v : Program S α) >>= f) = f v :=
  rfl

@[simp] theorem bind_act (a : S.Action) (k : S.Answer a → Program S α) (f : α → Program S β) :
    (act a k >>= f) = act a fun r => k r >>= f := rfl

@[simp] theorem bind_perform (a : S.Action) (f : S.Answer a → Program S β) :
    (perform a >>= f) = act a f := rfl

theorem bind_done_right (p : Program S α) : (p >>= fun v => done v) = p := by
  induction p with
  | done v => rfl
  | act a k ih =>
      show act a (fun r => k r >>= fun v => done v) = act a k
      congr 1
      funext r
      exact ih r

protected theorem bind_assoc (p : Program S α) (f : α → Program S β) (g : β → Program S γ) :
    p >>= f >>= g = p >>= fun v => f v >>= g := by
  induction p with
  | done v => rfl
  | act a k ih =>
      show act a (fun r => k r >>= f >>= g) = act a (fun r => k r >>= fun v => f v >>= g)
      congr 1
      funext r
      exact ih r

instance : LawfulMonad (Program S) :=
  LawfulMonad.mk' _ (fun p => bind_done_right p) (fun _ _ => rfl) Program.bind_assoc

/-- Every action the program can ever perform satisfies `allowed`, whatever the answers. -/
def Confined (allowed : S.Action → Prop) : Program S α → Prop
  | .done _ => True
  | .act a k => allowed a ∧ ∀ r, (k r).Confined allowed

theorem Confined.bind {allowed : S.Action → Prop} {p : Program S α} {f : α → Program S β}
    (hp : p.Confined allowed) (hf : ∀ v, (f v).Confined allowed) : (p >>= f).Confined allowed := by
  induction p with
  | done v => exact hf v
  | act a k ih => exact ⟨hp.1, fun r => ih r (hp.2 r)⟩

theorem Confined.mono {allowed permitted : S.Action → Prop} {p : Program S α}
    (hp : p.Confined allowed) (h : ∀ a, allowed a → permitted a) : p.Confined permitted := by
  induction p with
  | done v => trivial
  | act a k ih => exact ⟨h a hp.1, fun r => ih r (hp.2 r)⟩

theorem Confined.of_forall {allowed : S.Action → Prop} (h : ∀ a, allowed a) (p : Program S α) :
    p.Confined allowed := by
  induction p with
  | done v => trivial
  | act a k ih => exact ⟨h a, ih⟩

end Program

/-- What the actions do.  `exec t a c s` is the answer and the next state when thread `t` performs
`a` in state `s` and the scheduler makes the choice `c`; it is `none` where that cannot happen. -/
structure Machine (S : Signature) (Thread State Choice : Type) where
  exec : Thread → (a : S.Action) → Choice → State → Option (S.Answer a × State)

variable {S : Signature} {Thread State Choice α β : Type}

/-- `Runs M t p s v s'`: thread `t` alone, starting in `s`, can run `p` to the result `v` in
`s'`. -/
inductive Runs (M : Machine S Thread State Choice) (t : Thread) :
    Program S α → State → α → State → Prop where
  | done (v : α) (s : State) : Runs M t (.done v) s v s
  | act {a : S.Action} {k : S.Answer a → Program S α} {c : Choice} {s s' s'' : State}
      {r : S.Answer a} {v : α} (hx : M.exec t a c s = some (r, s')) (hk : Runs M t (k r) s' v s'') :
      Runs M t (.act a k) s v s''

namespace Runs

variable {M : Machine S Thread State Choice} {t : Thread}

theorem done_iff {v w : α} {s s' : State} : Runs M t (.done v) s w s' ↔ w = v ∧ s' = s := by
  constructor
  · rintro ⟨⟩
    exact ⟨rfl, rfl⟩
  · rintro ⟨rfl, rfl⟩
    exact .done _ _

theorem act_iff {a : S.Action} {k : S.Answer a → Program S α} {s s'' : State} {v : α} :
    Runs M t (.act a k) s v s'' ↔
      ∃ c r s', M.exec t a c s = some (r, s') ∧ Runs M t (k r) s' v s'' := by
  constructor
  · rintro ⟨⟩
    exact ⟨_, _, _, by assumption, by assumption⟩
  · rintro ⟨c, r, s', hx, hk⟩
    exact .act hx hk

/-- **Sequential composition.**  A run of `p >>= f` is a run of `p` followed by one of its
continuation. -/
theorem bind_iff {p : Program S α} {f : α → Program S β} {s s'' : State} {w : β} :
    Runs M t (p >>= f) s w s'' ↔ ∃ v s', Runs M t p s v s' ∧ Runs M t (f v) s' w s'' := by
  induction p generalizing s with
  | done v =>
      rw [Program.bind_done]
      constructor
      · exact fun h => ⟨v, s, .done v s, h⟩
      · rintro ⟨u, s', hp, hf⟩
        obtain ⟨rfl, rfl⟩ := done_iff.mp hp
        exact hf
  | act a k ih =>
      rw [Program.bind_act, act_iff]
      constructor
      · rintro ⟨c, r, s', hx, h⟩
        obtain ⟨v, s₁, hp, hf⟩ := (ih r).mp h
        exact ⟨v, s₁, .act hx hp, hf⟩
      · rintro ⟨v, s₁, hp, hf⟩
        obtain ⟨c, r, s', hx, hk⟩ := act_iff.mp hp
        exact ⟨c, r, s', hx, (ih r).mpr ⟨v, s₁, hk, hf⟩⟩

/-- A run on a machine that can do less. -/
theorem mono {M' : Machine S Thread State Choice} {p : Program S α} {s s' : State} {v : α}
    (hM : ∀ {a c u r u'}, M.exec t a c u = some (r, u') → M'.exec t a c u = some (r, u'))
    (h : Runs M t p s v s') : Runs M' t p s v s' := by
  induction h with
  | done v s => exact .done v s
  | act hx _ ih => exact .act (hM hx) ih

/-- What every action of a program keeps, its runs keep. -/
theorem keeps {allowed : S.Action → Prop} {I : State → Prop} {p : Program S α}
    {s s' : State} {v : α} (hp : p.Confined allowed) (hstep : ∀ {a c u r u'}, allowed a →
      M.exec t a c u = some (r, u') → I u → I u')
    (h : Runs M t p s v s') (hs : I s) : I s' := by
  induction h with
  | done v s => exact hs
  | act hx _ ih => exact ih (hp.2 _) (hstep hp.1 hx hs)

/-- A program whose actions can always be performed runs to its end. -/
theorem exists_of_confined {allowed : S.Action → Prop} {p : Program S α} (hp : p.Confined allowed)
    (hexec : ∀ a, allowed a → ∀ s, ∃ c r s', M.exec t a c s = some (r, s')) (s : State) :
    ∃ v s', Runs M t p s v s' := by
  induction p generalizing s with
  | done v => exact ⟨v, s, .done v s⟩
  | act a k ih =>
      obtain ⟨c, r, s', hx⟩ := hexec a hp.1 s
      obtain ⟨v, s'', hk⟩ := ih r (hp.2 r) s'
      exact ⟨v, s'', .act hx hk⟩

end Runs

/-- The run in which the scheduler always makes the choice `c`. -/
def Machine.simulate (M : Machine S Thread State Choice) (t : Thread) (c : Choice) :
    Program S α → State → Option (α × State)
  | .done v, s => some (v, s)
  | .act a k, s => (M.exec t a c s).bind fun x => M.simulate t c (k x.1) x.2

theorem Machine.simulate_runs {M : Machine S Thread State Choice} {t : Thread} {c : Choice}
    {p : Program S α} {s s' : State} {v : α} (h : M.simulate t c p s = some (v, s')) :
    Runs M t p s v s' := by
  induction p generalizing s with
  | done u =>
      obtain ⟨rfl, rfl⟩ := Prod.mk.inj (Option.some.inj h)
      exact .done u s
  | act a k ih =>
      obtain ⟨⟨r, u⟩, hx, hk⟩ := Option.bind_eq_some_iff.mp h
      exact .act hx (ih r hk)

theorem Machine.exists_run {M : Machine S Thread State Choice} {t : Thread} {c : Choice}
    {p : Program S α} {s : State} {v : α} (h : (M.simulate t c p s).map Prod.fst = some v) :
    ∃ s', Runs M t p s v s' := by
  obtain ⟨⟨u, s'⟩, hx, rfl⟩ := Option.map_eq_some_iff.mp h
  exact ⟨s', simulate_runs hx⟩

end AtomicProgram
