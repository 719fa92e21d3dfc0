import Mathlib

/-!
# Remote calls

What a service for remote calls is for, without messages, queues or threads.  A caller asks, an
invocation of the server is given the request of one call, it replies, and the caller gets the
reply.

* `Service`, `Step` — the state of such a service, and what may happen in it;
* `Run.pairwise` — no call is made, served, answered or resolved twice;
* `Run.chain` — a caller that gets a result has asked, and an invocation was given its request and
  replied with that result, in this order.
-/

namespace RemoteCall

variable {Q A : Type}

/-- What can be seen of a service. -/
inductive Event (Q A : Type) where
  | ask (k : ℕ) (q : Q)
  | serve (n k : ℕ) (q : Q)
  | reply (n : ℕ) (a : A)
  | deliver (k : ℕ) (a : A)
  deriving DecidableEq

/-- Two events of which a service shows at most one: the same call is made or resolved, the same
invocation begins or replies, or two invocations serve the same call. -/
def Event.Excludes : Event Q A → Event Q A → Prop
  | .ask k _, .ask k' _ => k = k'
  | .serve n k _, .serve n' k' _ => n = n' ∨ k = k'
  | .reply n _, .reply n' _ => n = n'
  | .deliver k _, .deliver k' _ => k = k'
  | _, _ => False

/-- The request of each call, the call that each invocation serves, what it replied, and what each
caller got. -/
structure Service (Q A : Type) where
  asked : ℕ → Option Q
  serves : ℕ → Option ℕ
  answer : ℕ → Option A
  result : ℕ → Option A

/-- Nobody has asked anything. -/
def Service.empty : Service Q A := ⟨fun _ => none, fun _ => none, fun _ => none, fun _ => none⟩

/-- What may happen in a service. -/
inductive Step (s : Service Q A) : Event Q A → Service Q A → Prop where
  | ask {k : ℕ} {q : Q} (hk : s.asked k = none) :
      Step s (.ask k q) { s with asked := Function.update s.asked k (some q) }
  | serve {n k : ℕ} {q : Q} (hq : s.asked k = some q) (hn : s.serves n = none)
      (hk : ∀ m, s.serves m ≠ some k) :
      Step s (.serve n k q) { s with serves := Function.update s.serves n (some k) }
  | reply {n k : ℕ} {a : A} (hn : s.serves n = some k) (ha : s.answer n = none) :
      Step s (.reply n a) { s with answer := Function.update s.answer n (some a) }
  | deliver {k n : ℕ} {a : A} (hn : s.serves n = some k) (ha : s.answer n = some a)
      (hk : s.result k = none) :
      Step s (.deliver k a) { s with result := Function.update s.result k (some a) }

/-- A service that shows these events comes to this state. -/
inductive Run : List (Event Q A) → Service Q A → Prop where
  | start : Run [] .empty
  | step {es : List (Event Q A)} {s s' : Service Q A} {e : Event Q A}
      (h : Run es s) (hs : Step s e s') :
      Run (es ++ [e]) s'

variable {s s' : Service Q A} {e e' : Event Q A} {es : List (Event Q A)} {n k : ℕ} {q : Q} {a : A}

/-- What an event leaves in the state. -/
def Service.Marked (s : Service Q A) : Event Q A → Prop
  | .ask k q => s.asked k = some q
  | .serve n k q => s.asked k = some q ∧ s.serves n = some k
  | .reply n a => s.answer n = some a
  | .deliver k a => s.result k = some a

theorem update_of_none {β : Type} {f : ℕ → Option β} {i j : ℕ} {x y : β} (hi : f i = none)
    (hj : f j = some y) :
    Function.update f i (some x) j = some y := by
  have hne : j ≠ i := by
    intro heq
    rw [heq, hi] at hj
    cases hj
  rw [Function.update_of_ne hne]
  exact hj

/-- A step keeps what the events before have left. -/
theorem Step.keeps (h : Step s e s') (hs : s.Marked e') : s'.Marked e' := by
  cases h with
  | ask hk =>
      cases e' with
      | ask j q => exact update_of_none hk hs
      | serve m j q => exact ⟨update_of_none hk hs.1, hs.2⟩
      | _ => exact hs
  | serve hq hn hk =>
      cases e' with
      | serve m j q => exact ⟨hs.1, update_of_none hn hs.2⟩
      | _ => exact hs
  | reply hn ha =>
      cases e' with
      | reply m b => exact update_of_none ha hs
      | _ => exact hs
  | deliver hn ha hk =>
      cases e' with
      | deliver j b => exact update_of_none hk hs
      | _ => exact hs

theorem Step.marked (h : Step s e s') : s'.Marked e := by
  cases h with
  | ask hk => exact Function.update_self ..
  | serve hq hn hk => exact ⟨hq, Function.update_self ..⟩
  | reply hn ha => exact Function.update_self ..
  | deliver hn ha hk => exact Function.update_self ..

/-- **Every event leaves its mark.** -/
theorem Run.marked (h : Run es s) (he : e ∈ es) : s.Marked e := by
  induction h with
  | start => cases he
  | step h hs ih =>
      cases List.mem_append.mp he with
      | inl hold => exact hs.keeps (ih hold)
      | inr hnew =>
          obtain rfl := List.mem_singleton.mp hnew
          exact hs.marked

/-- An event that has left its mark excludes the others of its kind. -/
theorem Step.not_excludes (h : Step s e s') (hs : s.Marked e') : ¬e'.Excludes e := by
  intro hex
  cases h with
  | ask hk =>
      cases e' with
      | ask j q =>
          obtain rfl : j = _ := hex
          cases hk.symm.trans hs
      | _ => exact hex
  | serve hq hn hk =>
      cases e' with
      | serve m j q =>
          cases hex with
          | inl heq =>
              subst heq
              cases hn.symm.trans hs.2
          | inr heq =>
              subst heq
              exact hk m hs.2
      | _ => exact hex
  | reply hn ha =>
      cases e' with
      | reply m b =>
          obtain rfl : m = _ := hex
          cases ha.symm.trans hs
      | _ => exact hex
  | deliver hn ha hk =>
      cases e' with
      | deliver j b =>
          obtain rfl : j = _ := hex
          cases hk.symm.trans hs
      | _ => exact hex

/-- **At most once**: no call is made, served, answered or resolved twice. -/
theorem Run.pairwise (h : Run es s) : es.Pairwise fun e e' => ¬e.Excludes e' := by
  induction h with
  | start => exact List.Pairwise.nil
  | step h hs ih =>
      rw [List.pairwise_append]
      refine ⟨ih, List.pairwise_singleton _ _, ?_⟩
      intro e' he' e he
      obtain rfl := List.mem_singleton.mp he
      exact hs.not_excludes (h.marked he')

/-- The events that have led to the state, each behind those that it depends on. -/
structure Explained (es : List (Event Q A)) (s : Service Q A) : Prop where
  asked : ∀ k q, s.asked k = some q → List.Sublist [.ask k q] es
  serves : ∀ n k, s.serves n = some k → ∃ q, s.asked k = some q ∧
    List.Sublist [.ask k q, .serve n k q] es
  answer : ∀ n a, s.answer n = some a → ∃ k q, s.serves n = some k ∧
    List.Sublist [.ask k q, .serve n k q, .reply n a] es
  result : ∀ k a, s.result k = some a →
    ∃ n q, List.Sublist [.ask k q, .serve n k q, .reply n a, .deliver k a] es

theorem update_cases {β : Type} {f : ℕ → Option β} {i j : ℕ} {x y : β}
    (h : Function.update f i (some x) j = some y) : (j = i ∧ x = y) ∨ f j = some y := by
  by_cases hj : j = i
  · subst hj
    rw [Function.update_self] at h
    exact .inl ⟨rfl, Option.some.inj h⟩
  · rw [Function.update_of_ne hj] at h
    exact .inr h

/-- An event explains more of the state, and what was explained before stays so. -/
theorem Explained.step (h : Explained es s) (hs : Step s e s') : Explained (es ++ [e]) s' := by
  have hold : ∀ {l : List (Event Q A)}, l.Sublist es → l.Sublist (es ++ [e]) := by
    intro l hl
    exact hl.trans (List.sublist_append_left _ _)
  have hnew : ∀ {l : List (Event Q A)}, l.Sublist es → (l ++ [e]).Sublist (es ++ [e]) := by
    intro l hl
    exact hl.append (List.Sublist.refl _)
  have hasked : ∀ {k q}, s.asked k = some q → s'.asked k = some q := by
    intro k q hq
    have hmarked : s.Marked (.ask k q) := hq
    exact hs.keeps hmarked
  have hserves : ∀ {n k q}, s.asked k = some q → s.serves n = some k → s'.serves n = some k := by
    intro n k q hq hn
    have hmarked : s.Marked (.serve n k q) := ⟨hq, hn⟩
    exact (hs.keeps hmarked).2
  refine ⟨fun k q hk => ?_, fun n k hn => ?_, fun n a ha => ?_, fun k a hk => ?_⟩
  · have hcases : (∃ j x, e = .ask j x ∧ j = k ∧ x = q) ∨ s.asked k = some q := by
      cases hs with
      | ask hj =>
          cases update_cases hk with
          | inl heq => exact .inl ⟨_, _, rfl, heq.1.symm, heq.2⟩
          | inr heq => exact .inr heq
      | _ => exact .inr hk
    rcases hcases with ⟨j, x, rfl, rfl, rfl⟩ | hk
    · exact List.sublist_append_right _ _
    · exact hold (h.asked k q hk)
  · have hcases : (∃ q, e = .serve n k q ∧ s.asked k = some q) ∨ s.serves n = some k := by
      cases hs with
      | serve hq hm hj =>
          rcases update_cases hn with ⟨rfl, rfl⟩ | heq
          · exact .inl ⟨_, rfl, hq⟩
          · exact .inr heq
      | _ => exact .inr hn
    rcases hcases with ⟨q, rfl, hq⟩ | hn
    · exact ⟨q, hasked hq, hnew (h.asked k q hq)⟩
    · obtain ⟨q, hq, hsub⟩ := h.serves n k hn
      exact ⟨q, hasked hq, hold hsub⟩
  · have hcases : (∃ k, e = .reply n a ∧ s.serves n = some k) ∨ s.answer n = some a := by
      cases hs with
      | reply hm hb =>
          rcases update_cases ha with ⟨rfl, rfl⟩ | heq
          · exact .inl ⟨_, rfl, hm⟩
          · exact .inr heq
      | _ => exact .inr ha
    rcases hcases with ⟨k, rfl, hn⟩ | ha
    · obtain ⟨q, hq, hsub⟩ := h.serves n k hn
      exact ⟨k, q, hserves hq hn, hnew hsub⟩
    · obtain ⟨k, q, hn, hsub⟩ := h.answer n a ha
      obtain ⟨q', hq', -⟩ := h.serves n k hn
      exact ⟨k, q, hserves hq' hn, hold hsub⟩
  · have hcases : (∃ n, e = .deliver k a ∧ s.serves n = some k ∧ s.answer n = some a) ∨
        s.result k = some a := by
      cases hs with
      | deliver hn hb hj =>
          rcases update_cases hk with ⟨rfl, rfl⟩ | heq
          · exact .inl ⟨_, rfl, hn, hb⟩
          · exact .inr heq
      | _ => exact .inr hk
    rcases hcases with ⟨n, rfl, hn, ha⟩ | hk
    · obtain ⟨j, q, hj, hsub⟩ := h.answer n a ha
      obtain rfl := Option.some.inj (hj.symm.trans hn)
      exact ⟨n, q, hnew hsub⟩
    · obtain ⟨n, q, hsub⟩ := h.result k a hk
      exact ⟨n, q, hold hsub⟩

theorem Run.explained (h : Run es s) : Explained es s := by
  induction h with
  | start => exact ⟨nofun, nofun, nofun, nofun⟩
  | step h hs ih => exact ih.step hs

/-- **A result has a history**: the caller has asked, an invocation was given its request, and
replied with the result. -/
theorem Run.chain (h : Run es s) (hk : s.result k = some a) :
    ∃ n q, List.Sublist [.ask k q, .serve n k q, .reply n a, .deliver k a] es :=
  h.explained.result k a hk

end RemoteCall
