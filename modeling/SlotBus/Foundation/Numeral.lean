import Mathlib

/-!
# Decimal numerals at the end of a text

A text that ends in a separator and a decimal numeral can be taken apart from the right in one way
only, whatever stands in front of it.

* `digits` — the decimal digits of a number, injective and free of separators;
* `last_separator_unique` — the last separator of a text determines both sides;
* `last_nondigit_unique` — so does the last character before the number at its end;
* `digits_length_le` — the length of small numerals.
-/

namespace Numeral

/-- The decimal digits of a number. -/
def digits (n : ℕ) : List Char := Nat.toDigits 10 n

theorem digits_injective {m n : ℕ} (h : digits m = digits n) : m = n := by
  have h' := congrArg (fun cs => Nat.ofDigitChars 10 cs 0) h
  simpa only [digits, Nat.ofDigitChars_ten_toDigits] using h'

theorem isDigit_of_mem_digits {n : ℕ} {c : Char} (h : c ∈ digits n) : c.isDigit = true :=
  Nat.isDigit_of_mem_toDigits (by omega) (by omega) h

theorem digits_length_le {n k : ℕ} (hk : 0 < k) (h : n < 10 ^ k) : (digits n).length ≤ k :=
  (Nat.length_toDigits_le_iff (by omega) hk).mpr h

/-- If what follows a separator contains no separator, both sides of it are determined. -/
theorem last_separator_unique {α : Type*} {sep : α → Prop} {xs ys ds es : List α} {c d : α}
    (h : xs ++ c :: ds = ys ++ d :: es) (hc : sep c) (hd : sep d) (hds : ∀ x ∈ ds, ¬ sep x)
    (hes : ∀ x ∈ es, ¬ sep x) : xs = ys ∧ c = d ∧ ds = es := by
  rcases List.append_eq_append_iff.mp h with ⟨as, h1, h2⟩ | ⟨as, h1, h2⟩
  · cases as with
    | nil =>
        obtain ⟨rfl, rfl⟩ := List.cons.inj h2
        exact ⟨by simpa using h1.symm, rfl, rfl⟩
    | cons a as =>
        obtain ⟨rfl, h3⟩ := List.cons.inj h2
        exact absurd hd (hds d (by rw [h3]; simp))
  · cases as with
    | nil =>
        obtain ⟨rfl, rfl⟩ := List.cons.inj h2
        exact ⟨by simpa using h1, rfl, rfl⟩
    | cons a as =>
        obtain ⟨rfl, h3⟩ := List.cons.inj h2
        exact absurd hc (hes c (by rw [h3]; simp))

/-- The last character that is no digit separates a number from what precedes it. -/
theorem last_nondigit_unique {x y : List Char} {a b : Char} {n m : ℕ}
    (h : x ++ a :: digits n = y ++ b :: digits m) (ha : a.isDigit = false)
    (hb : b.isDigit = false) : x = y ∧ a = b ∧ n = m := by
  let sep : Char → Prop := fun c => c.isDigit = false
  have hdigits : ∀ n, ∀ c ∈ digits n, ¬ sep c := by
    intro n c hc hsep
    have hdigit : c.isDigit = true := isDigit_of_mem_digits hc
    exact absurd (hsep.symm.trans hdigit) (by decide)
  have ha' : sep a := ha
  obtain ⟨hx, hab, hdig⟩ := last_separator_unique h ha' hb (hdigits n) (hdigits m)
  exact ⟨hx, hab, digits_injective hdig⟩

end Numeral
