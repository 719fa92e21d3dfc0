import SlotBus.Region
import SlotBus.Foundation.Numeral

/-!
# Overflow names are distinct

The name of an overflow region ends in its direction, slot and generation, and it can be read back
from the right: a numeral contains no separator, and `-g` does not occur in a name of generation 0.
On macOS a long name keeps its last 15 bytes, and the part that matters has at most 13 of them for
the slots of a valid configuration, so nothing is lost there either.

* `overflow_tail_unique` — the tail determines direction, slot and generation;
* `sanitize_keeps_tail` — sanitizing keeps a tail of at most 15 bytes;
* `overflow_name_gen_injective` — **two overflow regions of one bus never share an OS name.**
-/

namespace SlotBus

open Numeral

/-- The word by which an overflow name tells the direction. -/
def Direction.kind : Direction → String
  | .request => "req"
  | .response => "rsp"

/-- The characters of a kind. -/
def Direction.kind_chars : Direction → List Char
  | .request => ['r', 'e', 'q']
  | .response => ['r', 's', 'p']

theorem Direction.kind_toList (d : Direction) : d.kind.toList = d.kind_chars := by
  cases d with
  | request => exact String.toList_ofList
  | response => exact String.toList_ofList

theorem Direction.overflow_name_gen_eq (d : Direction) (config : SlotBusConfig) (target : Target)
    (slot generation : ℕ) :
    d.overflow_name_gen config target slot generation =
      sanitize_os_name target
        (overflow_name config.prefix_ config.name d.kind slot generation) := by
  cases d <;> rfl

/-! ### The tail of a name -/

/-- What follows the prefix and the name of the configuration. -/
def overflow_tail (d : Direction) (slot generation : ℕ) : List Char :=
  '-' :: d.kind.toList ++ '-' :: digits slot ++
    if generation = 0 then [] else '-' :: 'g' :: digits generation

theorem overflow_name_toList (prefix_ name : String) (d : Direction) (slot generation : ℕ) :
    (overflow_name prefix_ name d.kind slot generation).toList =
      (prefix_.toList ++ '-' :: name.toList) ++ overflow_tail d slot generation := by
  unfold overflow_name overflow_tail
  split <;> simp [toString, String.toList_append] <;> rfl

/-- The slot and the direction of a name without generation. -/
theorem slot_tail_unique {x y : List Char} {d e : Direction} {i j : ℕ}
    (h : x ++ '-' :: d.kind.toList ++ '-' :: digits i = y ++ '-' ::
      e.kind.toList ++ '-' :: digits j) :
    d = e ∧ i = j := by
  obtain ⟨hk, -, hij⟩ := last_nondigit_unique h rfl rfl
  refine ⟨?_, hij⟩
  rw [d.kind_toList, e.kind_toList] at hk
  have hlen : ('-' :: d.kind_chars).length = ('-' :: e.kind_chars).length := by
    cases d <;> cases e <;> rfl
  have hkind := (List.append_inj' hk hlen).2
  cases d <;> cases e <;> first | rfl | exact absurd hkind (by decide)

/-- **The tail of a name determines what it stands for**, whatever precedes it. -/
theorem overflow_tail_unique {x y : List Char} {d e : Direction} {i j g k : ℕ}
    (h : x ++ overflow_tail d i g = y ++ overflow_tail e j k) : d = e ∧ i = j ∧ g = k := by
  unfold overflow_tail at h
  by_cases hg : g = 0 <;> by_cases hk : k = 0
  · rw [if_pos hg, if_pos hk] at h
    obtain ⟨hd, hi⟩ := slot_tail_unique (by simpa using h)
    exact ⟨hd, hi, hg.trans hk.symm⟩
  · -- a name without generation has '-' where the other has 'g'
    rw [if_pos hg, if_neg hk] at h
    have h' : (x ++ '-' :: d.kind.toList) ++ '-' :: digits i =
        (y ++ '-' :: e.kind.toList ++ '-' :: digits j ++ ['-']) ++ 'g' :: digits k := by
          simpa using h
    exact absurd (last_nondigit_unique h' rfl rfl).2.1 (by decide)
  · rw [if_neg hg, if_pos hk] at h
    have h' : (x ++ '-' :: d.kind.toList ++ '-' :: digits i ++ ['-']) ++ 'g' :: digits g =
        (y ++ '-' :: e.kind.toList) ++ '-' :: digits j := by simpa using h
    exact absurd (last_nondigit_unique h' rfl rfl).2.1 (by decide)
  · rw [if_neg hg, if_neg hk] at h
    have h' : (x ++ '-' :: d.kind.toList ++ '-' :: digits i ++ ['-']) ++ 'g' :: digits g =
        (y ++ '-' :: e.kind.toList ++ '-' :: digits j ++ ['-']) ++ 'g' :: digits k := by
          simpa using h
    obtain ⟨hx, -, hgen⟩ := last_nondigit_unique h' rfl rfl
    obtain ⟨hd, hi⟩ := slot_tail_unique (List.append_cancel_right hx)
    exact ⟨hd, hi, hgen⟩

/-! ### Sanitizing -/

@[simp] theorem ofList_utf8ByteSize_nil : (String.ofList []).utf8ByteSize = 0 := rfl

@[simp] theorem ofList_utf8ByteSize_cons (c : Char) (cs : List Char) :
    (String.ofList (c :: cs)).utf8ByteSize = c.utf8Size + (String.ofList cs).utf8ByteSize := by
  rw [String.ofList_cons, String.utf8ByteSize_append, String.utf8ByteSize_singleton]

theorem ofList_utf8ByteSize_append (xs ys : List Char) :
    (String.ofList (xs ++ ys)).utf8ByteSize =
      (String.ofList xs).utf8ByteSize + (String.ofList ys).utf8ByteSize := by
  rw [String.ofList_append, String.utf8ByteSize_append]

/-- A text of one-byte characters. -/
theorem ofList_utf8ByteSize_ascii {cs : List Char} (h : ∀ c ∈ cs, c.utf8Size = 1) :
    (String.ofList cs).utf8ByteSize = cs.length := by
  induction cs with
  | nil => rfl
  | cons c cs ih =>
      rw [ofList_utf8ByteSize_cons, h c (by simp), ih fun d hd => h d (by simp [hd]),
        List.length_cons, Nat.add_comm]

theorem digits_utf8ByteSize (n : ℕ) :
    (String.ofList (digits n)).utf8ByteSize = (digits n).length := by
  apply ofList_utf8ByteSize_ascii
  intro c hc
  have h := isDigit_of_mem_digits hc
  simp only [Char.isDigit, Bool.and_eq_true, decide_eq_true_eq] at h
  have h2 : c.val ≤ 0x7f := UInt32.le_trans h.2 (by decide)
  simp [Char.utf8Size, h2]

theorem utf8_suffix_spec {n : ℕ} {cs suffix : List Char} (h : utf8_suffix n cs = some suffix) :
    suffix <:+ cs ∧ (String.ofList suffix).utf8ByteSize = n := by
  induction cs with
  | nil =>
      simp only [utf8_suffix] at h
      split at h
      · rename_i hn
        obtain rfl := Option.some.inj h
        exact ⟨List.suffix_rfl, by simp [hn]⟩
      · cases h
  | cons c cs ih =>
      rw [utf8_suffix] at h
      split at h
      · rename_i hn
        obtain rfl := Option.some.inj h
        exact ⟨List.suffix_rfl, hn⟩
      · exact ⟨(ih h).1.trans (List.suffix_cons c cs), (ih h).2⟩

theorem encode_base62_utf8ByteSize (n : ℕ) (h : UInt64) :
    (String.ofList (encode_base62 n h)).utf8ByteSize = n := by
  have hchar : ∀ k, (CHARS.getD k '0').utf8Size = 1 := by
    intro k
    have hall : CHARS.all (fun c => c.utf8Size = 1) = true := by decide
    rw [List.getD_eq_getElem?_getD]
    cases hk : CHARS[k]? with
    | none => rfl
    | some c => exact of_decide_eq_true (List.all_eq_true.mp hall c (List.mem_of_getElem? hk))
  induction n generalizing h with
  | zero => rfl
  | succ n ih => rw [encode_base62, ofList_utf8ByteSize_cons, hchar, ih, Nat.add_comm]

/-- Of two suffixes of a text the shorter one is a suffix of the longer one. -/
theorem suffix_of_utf8ByteSize_le {s t cs : List Char} (hs : s <:+ cs) (ht : t <:+ cs)
    (h : (String.ofList s).utf8ByteSize ≤ (String.ofList t).utf8ByteSize) : s <:+ t := by
  rcases List.suffix_or_suffix_of_suffix hs ht with hst | ⟨q, rfl⟩
  · exact hst
  · rw [ofList_utf8ByteSize_append] at h
    cases q with
    | nil => exact List.suffix_rfl
    | cons c q =>
        rw [ofList_utf8ByteSize_cons] at h
        have := c.utf8Size_pos
        omega

/-- What stands in front of the last 15 bytes of a long name. -/
def hashed (name : String) : String :=
  "sb-" ++ String.ofList (encode_base62 11 (fnv_hash name.toUTF8.toList))

theorem hashed_utf8ByteSize (name : String) : (hashed name).utf8ByteSize = 14 := by
  rw [hashed, String.utf8ByteSize_append, encode_base62_utf8ByteSize]
  rfl

/-- A long name on macOS. -/
theorem sanitize_os_name_long {name : String} (h : MAX_NAME < name.utf8ByteSize) :
    sanitize_os_name .macos name =
      (utf8_suffix 15 name.toList).map fun suffix => hashed name ++ String.ofList suffix := by
  have hmin : min (MAX_NAME - 14) name.utf8ByteSize = 15 := by
    simp only [MAX_NAME] at h ⊢
    omega
  simp only [sanitize_os_name, if_neg (not_le.mpr h), hmin]
  apply Option.map_congr
  intro suffix hsuffix
  -- the result has exactly 29 bytes, so it is never cut back to the hash
  have hresult : (hashed name ++ String.ofList suffix).utf8ByteSize = MAX_NAME := by
    rw [String.utf8ByteSize_append, hashed_utf8ByteSize, (utf8_suffix_spec hsuffix).2]
    rfl
  exact if_neg (hresult ▸ lt_irrefl MAX_NAME)

/-- **Sanitizing keeps the end of a name**, as far as it fits into 15 bytes. -/
theorem sanitize_keeps_tail {target : Target} {name s : String} {tail : List Char}
    (hname : tail <:+ name.toList)
    (hlen : target = .macos → (String.ofList tail).utf8ByteSize ≤ 15)
    (h : sanitize_os_name target name = some s) : tail <:+ s.toList := by
  cases target with
  | windows => exact Option.some.inj h ▸ hname
  | linux => exact Option.some.inj h ▸ hname
  | macos =>
      by_cases hlong : MAX_NAME < name.utf8ByteSize
      · rw [sanitize_os_name_long hlong] at h
        obtain ⟨suffix, hsuffix, rfl⟩ := Option.map_eq_some_iff.mp h
        obtain ⟨hs, hsize⟩ := utf8_suffix_spec hsuffix
        have htail := suffix_of_utf8ByteSize_le hname hs (by rw [hsize]; exact hlen rfl)
        rw [String.toList_append, String.toList_ofList]
        exact htail.trans (List.suffix_append _ _)
      · rw [sanitize_os_name, if_pos (not_lt.mp hlong)] at h
        exact Option.some.inj h ▸ hname

/-! ### Distinct names -/

/-- The length of the tail of a name, for a slot of `m` digits and a generation of `n` digits. -/
theorem overflow_tail_utf8ByteSize (d : Direction) {slot generation m n : ℕ}
    (hm : 0 < m) (hn : 0 < n) (hs : slot < 10 ^ m) (hg : generation < 10 ^ n) :
    (String.ofList (overflow_tail d slot generation)).utf8ByteSize ≤
      5 + m + if generation = 0 then 0 else 2 + n := by
  have h1 := digits_length_le hm hs
  have h2 := digits_length_le hn hg
  have hk : (String.ofList ('-' :: d.kind.toList)).utf8ByteSize = 4 := by cases d <;> rfl
  have hc : ('-' : Char).utf8Size = 1 := rfl
  have hg1 : ('g' : Char).utf8Size = 1 := rfl
  rw [overflow_tail, ofList_utf8ByteSize_append, ofList_utf8ByteSize_append, hk,
    ofList_utf8ByteSize_cons,
    hc, digits_utf8ByteSize]
  split
  · simp only [ofList_utf8ByteSize_nil]
    omega
  · rw [ofList_utf8ByteSize_cons, ofList_utf8ByteSize_cons, hc, hg1, digits_utf8ByteSize]
    omega

/-- The tail of the name fits into what sanitizing keeps. -/
def TailKept (target : Target) (d : Direction) (slot generation : ℕ) : Prop :=
  target = .macos → (String.ofList (overflow_tail d slot generation)).utf8ByteSize ≤ 15

theorem tailKept_of_lt {target : Target} (d : Direction) {slot generation : ℕ}
    (h : target = .macos → slot < 1000 ∧ generation < 1000) :
    TailKept target d slot generation := by
  intro ht
  obtain ⟨hs, hg⟩ := h ht
  refine (overflow_tail_utf8ByteSize d (m := 3) (n := 3) (by omega) (by omega) hs hg).trans ?_
  split <;> omega

/-- The tail of a name of generation 0 is kept, however many slots a control region has. -/
theorem tailKept_zero (target : Target) (d : Direction) {slot : ℕ} (hs : slot < 10 ^ 10) :
    TailKept target d slot 0 :=
  fun _ => overflow_tail_utf8ByteSize d (n := 1) (by omega) (by omega) hs (by omega)

/-- **Overflow names are distinct.**  Two overflow regions of one bus whose tails are kept have the
same OS name only if direction, slot and generation are the same. -/
theorem overflow_name_gen_injective {config : SlotBusConfig} {target : Target} {d e : Direction}
    {i j g k : ℕ} {s : String} (hd : TailKept target d i g) (he : TailKept target e j k)
    (h1 : d.overflow_name_gen config target i g = some s)
    (h2 : e.overflow_name_gen config target j k = some s) : d = e ∧ i = j ∧ g = k := by
  rw [Direction.overflow_name_gen_eq] at h1 h2
  obtain ⟨x, hx⟩ := sanitize_keeps_tail ⟨_, (overflow_name_toList _ _ d i g).symm⟩ hd h1
  obtain ⟨y, hy⟩ := sanitize_keeps_tail ⟨_, (overflow_name_toList _ _ e j k).symm⟩ he h2
  exact overflow_tail_unique (hx.trans hy.symm)

/-- **Overflow names of one bus never collide.** -/
theorem overflow_names_distinct (config : SlotBusConfig) (target : Target) {d e : Direction}
    {i j g k : ℕ} {s u : String} (hi : i < 256) (hj : j < 256) (hg : g ≤ MAX_OVERFLOW_GENERATION)
    (hk : k ≤ MAX_OVERFLOW_GENERATION) (hne : (d, i, g) ≠ (e, j, k))
    (hs : d.overflow_name_gen config target i g = some s)
    (hu : e.overflow_name_gen config target j k = some u) : s ≠ u := by
  rintro rfl
  simp only [MAX_OVERFLOW_GENERATION] at hg hk
  obtain ⟨rfl, rfl, rfl⟩ :=
    overflow_name_gen_injective (tailKept_of_lt d fun _ => ⟨by omega, by omega⟩)
    (tailKept_of_lt e fun _ => ⟨by omega, by omega⟩) hs hu
  exact hne rfl

/-- A bus whose overflow names have 29 bytes at generation 0, so that on macOS the later generations
are hashed. -/
def long_config : SlotBusConfig := ⟨"a-name-of-21-characte", "p", 256, 2 ^ 20⟩

theorem overflow_names_distinct_small :
    ∃ s u, Direction.request.overflow_name_gen long_config .macos 7 0 = some s ∧
      Direction.request.overflow_name_gen long_config .macos 7 1 = some u ∧ s ≠ u := by
  have hs : Direction.request.overflow_name_gen long_config .macos 7 0 =
      some "p-a-name-of-21-characte-req-7" := by
    decide +kernel
  have hu : Direction.request.overflow_name_gen long_config .macos 7 1 =
      some "sb-D3XXqDjH3k1aracte-req-7-g1" := by
    decide +kernel
  exact ⟨_, _, hs, hu, overflow_names_distinct long_config .macos (by decide) (by decide)
    (by decide) (by decide) (by decide) hs hu⟩

end SlotBus
