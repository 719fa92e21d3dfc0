import Mathlib

/-!
# Byte-addressed memory

A memory assigns a byte to every address.  `read` and `write` act on a stretch of addresses, and
`encodeLE` / `decodeLE` are the fixed-width little-endian integers stored in it.

* `read_write_same`, `read_write_disjoint`, `read_write_replicate` — what a read sees of a write;
* `AgreeOn A m m'` — equality on a set of addresses, kept by every write outside the set;
* `decodeLE_encodeLE` — the round trip, exact up to truncation to the width.
-/

namespace ByteMemory

/-- A memory: a byte at every address. -/
abbrev Memory := ℕ → UInt8

/-- The `n` bytes from address `a` on. -/
def read (m : Memory) (a : ℕ) : ℕ → List UInt8
  | 0 => []
  | n + 1 => m a :: read m (a + 1) n

/-- The memory after storing `bs` at the addresses from `a` on. -/
def write (m : Memory) (a : ℕ) (bs : List UInt8) : Memory :=
  fun x => if a ≤ x ∧ x < a + bs.length then bs.getD (x - a) 0 else m x

/-- The addresses of `n` bytes from `a` on. -/
def span (a n : ℕ) : Set ℕ := {x | a ≤ x ∧ x < a + n}

theorem mem_span {a n x : ℕ} : x ∈ span a n ↔ a ≤ x ∧ x < a + n := Iff.rfl

@[simp] theorem read_length (m : Memory) (a n : ℕ) : (read m a n).length = n := by
  induction n generalizing a with
  | zero => rfl
  | succ n ih => rw [read, List.length_cons, ih]

theorem read_add (m : Memory) (a n k : ℕ) : read m a (n + k) = read m a n ++ read m (a + n) k := by
  induction n generalizing a with
  | zero => rw [Nat.zero_add, Nat.add_zero]; rfl
  | succ n ih =>
      rw [show n + 1 + k = (n + k) + 1 from by omega, read, read, ih,
        show a + 1 + n = a + (n + 1) from by omega]
      rfl

theorem read_getD {m : Memory} {a n k : ℕ} (h : k < n) : (read m a n).getD k 0 = m (a + k) := by
  induction k generalizing a n with
  | zero =>
      obtain ⟨n, rfl⟩ := Nat.exists_eq_succ_of_ne_zero (Nat.ne_of_gt h)
      rfl
  | succ k ih =>
      obtain ⟨n, rfl⟩ := Nat.exists_eq_succ_of_ne_zero (Nat.ne_of_gt (Nat.zero_lt_of_lt h))
      rw [show a + (k + 1) = a + 1 + k from by omega, ← ih (Nat.lt_of_succ_lt_succ h)]
      rfl

theorem read_congr {m m' : Memory} {a n : ℕ} (h : ∀ x ∈ span a n, m x = m' x) :
    read m a n = read m' a n := by
  induction n generalizing a with
  | zero => rfl
  | succ n ih =>
      rw [read, read, h a ⟨le_refl a, by omega⟩]
      congr 1
      exact ih fun x hx => h x ⟨by have := hx.1; omega, by have := hx.2; omega⟩

theorem write_outside {m : Memory} {a x : ℕ} {bs : List UInt8} (h : x ∉ span a bs.length) :
    write m a bs x = m x := if_neg h

theorem write_nil (m : Memory) (a : ℕ) : write m a [] = m := by
  funext x
  exact write_outside fun h => by
    have h1 := h.1
    have h2 : x < a + 0 := h.2
    omega

/-- A read of exactly what was written. -/
theorem read_write_same (m : Memory) (a : ℕ) (bs : List UInt8) :
    read (write m a bs) a bs.length = bs := by
  induction bs generalizing m a with
  | nil => rfl
  | cons b bs ih =>
      rw [List.length_cons, read]
      have hhead : write m a (b :: bs) a = b := by simp [write]
      have htail : read (write m a (b :: bs)) (a + 1) bs.length =
          read (write m (a + 1) bs) (a + 1) bs.length := by
        apply read_congr
        rintro x ⟨h1, h2⟩
        have hx : x - a = x - (a + 1) + 1 := by omega
        simp only [write, List.length_cons]
        rw [if_pos ⟨by omega, by omega⟩, if_pos ⟨h1, h2⟩, hx, List.getD_cons_succ]
      rw [hhead, htail, ih]

/-- A read beside the written stretch sees the old bytes. -/
theorem read_write_disjoint {m : Memory} {a b n : ℕ} {bs : List UInt8}
    (h : a + bs.length ≤ b ∨ b + n ≤ a) : read (write m a bs) b n = read m b n := by
  apply read_congr
  rintro x ⟨h1, h2⟩
  apply write_outside
  rintro ⟨h3, h4⟩
  omega

/-- A read inside a stretch filled with one byte. -/
theorem read_write_replicate {m : Memory} {a b n k : ℕ} {v : UInt8} (h1 : a ≤ b)
    (h2 : b + k ≤ a + n) : read (write m a (List.replicate n v)) b k = List.replicate k v := by
  induction k generalizing b with
  | zero => rfl
  | succ k ih =>
      rw [read, ih (by omega) (by omega), List.replicate_succ]
      congr 1
      simp only [write, List.length_replicate]
      rw [if_pos ⟨h1, by omega⟩, List.getD_eq_getElem?_getD,
        List.getElem?_replicate, if_pos (by omega)]
      rfl

/-- A short read is a prefix of a longer one. -/
theorem read_take (m : Memory) (a : ℕ) {n k : ℕ} (h : n ≤ k) :
    (read m a k).take n = read m a n := by
  obtain ⟨j, rfl⟩ := Nat.exists_eq_add_of_le h
  rw [read_add, List.take_append_of_le_length (by rw [read_length]),
    List.take_of_length_le (by rw [read_length])]

/-- Writing what is there changes nothing, and nothing else does. -/
theorem write_eq_self_iff {m : Memory} {a : ℕ} {bs : List UInt8} :
    write m a bs = m ↔ read m a bs.length = bs := by
  constructor
  · intro h
    have hread := read_write_same m a bs
    rwa [h] at hread
  · intro h
    funext x
    unfold write
    split
    · rename_i hx
      obtain ⟨k, rfl⟩ := Nat.exists_eq_add_of_le hx.1
      rw [Nat.add_sub_cancel_left, ← h, read_getD (by omega)]
    · rfl

/-- Two memories hold the same bytes on a set of addresses. -/
def AgreeOn (A : Set ℕ) (m m' : Memory) : Prop := ∀ x ∈ A, m x = m' x

namespace AgreeOn

variable {A B : Set ℕ} {m m' m'' : Memory}

theorem refl (A : Set ℕ) (m : Memory) : AgreeOn A m m := fun _ _ => rfl

theorem trans (h : AgreeOn A m m') (h' : AgreeOn A m' m'') : AgreeOn A m m'' :=
  fun x hx => (h x hx).trans (h' x hx)

theorem symm (h : AgreeOn A m m') : AgreeOn A m' m := fun x hx => (h x hx).symm

theorem mono (h : AgreeOn A m m') (hs : B ⊆ A) : AgreeOn B m m' := fun x hx => h x (hs hx)

/-- A write elsewhere keeps the bytes of `A`. -/
theorem write {a : ℕ} {bs : List UInt8} (h : Disjoint A (span a bs.length)) :
    AgreeOn A m (ByteMemory.write m a bs) :=
  fun _ hx => (write_outside fun hs => Set.disjoint_left.mp h hx hs).symm

/-- The same write on both sides. -/
theorem write_both (h : AgreeOn A m m') (a : ℕ) (bs : List UInt8) :
    AgreeOn A (ByteMemory.write m a bs) (ByteMemory.write m' a bs) := by
  intro x hx
  unfold ByteMemory.write
  split
  · rfl
  · exact h x hx

theorem read {a n : ℕ} (h : AgreeOn A m m') (hs : span a n ⊆ A) :
    ByteMemory.read m a n = ByteMemory.read m' a n :=
  read_congr fun x hx => h x (hs hx)

end AgreeOn

/-! ### Little-endian integers -/

/-- The `w` little-endian bytes of `v`; what does not fit in `w` bytes is dropped. -/
def encodeLE : ℕ → ℕ → List UInt8
  | 0, _ => []
  | w + 1, v => UInt8.ofNat (v % 256) :: encodeLE w (v / 256)

/-- The integer with the given little-endian bytes. -/
def decodeLE : List UInt8 → ℕ
  | [] => 0
  | b :: bs => b.toNat + 256 * decodeLE bs

@[simp] theorem encodeLE_length (w v : ℕ) : (encodeLE w v).length = w := by
  induction w generalizing v with
  | zero => rfl
  | succ w ih => rw [encodeLE, List.length_cons, ih]

theorem decodeLE_encodeLE (w v : ℕ) : decodeLE (encodeLE w v) = v % 256 ^ w := by
  induction w generalizing v with
  | zero => simp [encodeLE, decodeLE, Nat.mod_one]
  | succ w ih =>
      have hb : (UInt8.ofNat (v % 256)).toNat = v % 256 := by
        rw [UInt8.toNat_ofNat']
        omega
      rw [encodeLE, decodeLE, ih, hb, pow_succ', Nat.mod_mul]

theorem decodeLE_lt (bs : List UInt8) : decodeLE bs < 256 ^ bs.length := by
  induction bs with
  | nil => simp [decodeLE]
  | cons b bs ih =>
      have hb := b.toNat_lt
      rw [decodeLE, List.length_cons, pow_succ]
      omega

/-- The integer stored in the `w` bytes at address `a`. -/
def load (m : Memory) (a w : ℕ) : ℕ := decodeLE (read m a w)

theorem load_write_same {m : Memory} {a w v : ℕ} :
    load (write m a (encodeLE w v)) a w = v % 256 ^ w := by
  have h := read_write_same m a (encodeLE w v)
  rw [encodeLE_length] at h
  rw [load, h, decodeLE_encodeLE]

theorem load_write_disjoint {m : Memory} {a b w : ℕ} {bs : List UInt8}
    (h : a + bs.length ≤ b ∨ b + w ≤ a) : load (write m a bs) b w = load m b w := by
  rw [load, load, read_write_disjoint h]

theorem load_congr {m m' : Memory} {a w : ℕ} (h : AgreeOn (span a w) m m') :
    load m a w = load m' a w := by
  rw [load, load, read_congr h]

end ByteMemory
