import Mathlib

/-!
# Shared ownership

A value that is dropped when its last owner lets go of it, and the threads that own it.

* `Arc` — a reference count and the value it counts the owners of;
* `Arc.Tracks` — the value is held while somebody owns it and gone afterwards, kept by `clone` and
  `release`;
* `weight` — what a list of threads owns together, and how it changes when one thread moves on.
-/

namespace SharedOwnership

/-- A value with the number of its owners. -/
structure Arc (α : Type) where
  strong : ℕ
  value : α
deriving DecidableEq

namespace Arc

variable {α : Type} {Held Gone : α → Prop} {drop : α → α} {a : Arc α}

def new (v : α) : Arc α := ⟨1, v⟩

def clone (a : Arc α) : Arc α := { a with strong := a.strong + 1 }

/-- One owner lets go; the last one drops the value. -/
def release (drop : α → α) (a : Arc α) : Arc α :=
  if a.strong = 1 then ⟨0, drop a.value⟩ else { a with strong := a.strong - 1 }

@[simp] theorem clone_strong : a.clone.strong = a.strong + 1 := rfl

@[simp] theorem clone_value : a.clone.value = a.value := rfl

@[simp] theorem release_strong : (a.release drop).strong = a.strong - 1 := by
  unfold release
  split
  next h => rw [h]
  next => rfl

/-- The value is held while somebody owns it, and gone once nobody does. -/
structure Tracks (Held Gone : α → Prop) (a : Arc α) : Prop where
  held : a.strong ≠ 0 → Held a.value
  gone : a.strong = 0 → Gone a.value

theorem Tracks.new {v : α} (h : Held v) : Tracks Held Gone (new v) :=
  ⟨fun _ => h, fun h => absurd h Nat.one_ne_zero⟩

theorem Tracks.clone (h : Tracks Held Gone a) (hown : a.strong ≠ 0) : Tracks Held Gone a.clone :=
  ⟨fun _ => h.held hown, fun h => absurd h (Nat.succ_ne_zero _)⟩

theorem Tracks.release (h : Tracks Held Gone a) (hown : a.strong ≠ 0)
    (hdrop : ∀ v, Held v → Gone (drop v)) :
    Tracks Held Gone (a.release drop) := by
  unfold Arc.release
  split
  next => exact ⟨fun h => absurd rfl h, fun _ => hdrop _ (h.held hown)⟩
  next hne =>
    constructor
    · intro _
      exact h.held hown
    · intro hzero
      have hzero' : a.strong - 1 = 0 := hzero
      omega

end Arc

section Weight

variable {τ : Type} {w : τ → ℕ} {threads : List τ} {t u : τ} {i : ℕ}

/-- What all threads own together. -/
def weight (w : τ → ℕ) (threads : List τ) : ℕ := (threads.map w).sum

theorem weight_append (t : τ) : weight w (threads ++ [t]) = weight w threads + w t := by
  simp [weight]

/-- One thread moves on. -/
theorem weight_set (h : threads[i]? = some t) :
    weight w (threads.set i u) + w t = weight w threads + w u := by
  induction threads generalizing i with
  | nil => cases h
  | cons x threads ih =>
      cases i with
      | zero =>
          obtain rfl := Option.some.inj h
          simp [weight]
          omega
      | succ i =>
          have hrest := ih h
          simp [weight] at hrest ⊢
          omega

theorem weight_eq_zero_iff : weight w threads = 0 ↔ ∀ t ∈ threads, w t = 0 := by
  rw [weight, List.sum_eq_zero_iff, List.forall_mem_map]

theorem le_weight (h : threads[i]? = some t) : w t ≤ weight w threads := by
  have hmem := List.mem_of_getElem? h
  exact List.single_le_sum (fun _ _ => Nat.zero_le _) _ (List.mem_map_of_mem hmem)

end Weight

end SharedOwnership
