import Mathlib

/-!
# Windows paths

The components of a path, and the join of two paths, as Rust's standard library documents them for
Windows.

* `prefixOf` — the verbatim, device, UNC or drive prefix at the front of a path;
* `components` — prefix, root and names, with `.` and repeated separators normalised away;
* `join` — a path appended to a directory, unless it replaces the directory;
* `components_join` — a path with one name, joined to a fully qualified directory, is a child of the
  directory.
-/

namespace WindowsPath

/-! ### Separators -/

def isSep (c : Char) : Bool := c == '/' || c == '\\'

/-- In a verbatim path only the backslash separates. -/
def isVerbatimSep (c : Char) : Bool := c == '\\'

@[simp] theorem isSep_backslash : isSep '\\' = true := rfl

@[simp] theorem isVerbatimSep_backslash : isVerbatimSep '\\' = true := rfl

theorem isSep_of_isVerbatimSep {c : Char} (h : isVerbatimSep c = true) : isSep c = true := by
  rw [isVerbatimSep, beq_iff_eq] at h
  rw [h]
  rfl

/-- Whether a path starts with a separator. -/
def startsWithSep : List Char → Bool
  | c :: _ => isSep c
  | [] => false

/-- The text up to the next separator, and the text after it. -/
def nextComponent (sep : Char → Bool) (path : List Char) : List Char × List Char :=
  (path.takeWhile (!sep ·), (path.dropWhile (!sep ·)).drop 1)

theorem nextComponent_append {sep : Char → Bool} {u : List Char} {s : Char}
    (hu : ∀ c ∈ u, sep c = false) (hs : sep s = true) (x : List Char) :
    nextComponent sep (u ++ s :: x) = (u, x) := by
  have hall : ∀ c ∈ u, (!sep c) = true := by
    intro c hc
    rw [hu c hc]
    rfl
  rw [nextComponent, List.takeWhile_append_of_pos hall, List.dropWhile_append_of_pos hall]
  simp [hs]

/-- A component that is as long as the text in front of `s` is that text, and `s` is its
separator. -/
theorem nextComponent_length {sep : Char → Bool} {u r : List Char} {s : Char}
    (hlen : u.length = (nextComponent sep (u ++ s :: r)).1.length) :
    (∀ c ∈ u, sep c = false) ∧ sep s = true := by
  have htake : (u ++ s :: r).takeWhile (!sep ·) = u := by
    apply List.IsPrefix.eq_of_length _ hlen.symm
    exact List.prefix_of_prefix_length_le (List.takeWhile_prefix _) (List.prefix_append u _) hlen.ge
  have hall : ∀ c ∈ u, (!sep c) = true := by
    intro c hc
    rw [← htake] at hc
    exact List.mem_takeWhile_imp (p := (!sep ·)) hc
  constructor
  · intro c hc
    exact Bool.not_eq_true' _ ▸ hall c hc
  · rw [List.takeWhile_append_of_pos hall] at htake
    cases hs : sep s with
    | true => rfl
    | false => simp [hs] at htake

/-! ### Prefixes -/

/-- What may stand in front of the root of a path. -/
inductive Prefix where
  /-- `\\?\x` -/
  | verbatim (x : List Char)
  /-- `\\?\UNC\server\share` -/
  | verbatimUNC (server share : List Char)
  /-- `\\?\C:` -/
  | verbatimDisk (drive : Char)
  /-- `\\.\x` -/
  | deviceNS (x : List Char)
  /-- `\\server\share` -/
  | unc (server share : List Char)
  /-- `C:` -/
  | disk (drive : Char)
deriving DecidableEq

namespace Prefix

def isVerbatim : Prefix → Bool
  | verbatim _ | verbatimUNC _ _ | verbatimDisk _ => true
  | deviceNS _ | unc _ _ | disk _ => false

/-- Only a path on a drive may be without a root. -/
def hasImplicitRoot : Prefix → Bool
  | disk _ => false
  | _ => true

/-- The number of characters of the prefix. -/
def len : Prefix → ℕ
  | verbatim x => 4 + x.length
  | verbatimUNC server share => 8 + server.length + if share.length > 0 then 1 + share.length else 0
  | verbatimDisk _ => 6
  | deviceNS x => 4 + x.length
  | unc server share => 2 + server.length + if share.length > 0 then 1 + share.length else 0
  | disk _ => 2

/-- A verbatim UNC prefix may lack its share; every other prefix is whole. -/
def Whole : Prefix → Prop
  | verbatimUNC _ share => share ≠ []
  | _ => True

end Prefix

/-- What follows `\\`. -/
def afterDouble : List Char → Option (List Char)
  | a :: b :: rest => if isSep a && isSep b then some rest else none
  | _ => none

/-- What follows `\\?\`, which is verbatim only with backslashes. -/
def afterVerbatim : List Char → Option (List Char)
  | a :: b :: c :: d :: rest => if a = '\\' ∧ b = '\\' ∧ c = '?' ∧ d = '\\' then some rest else none
  | _ => none

/-- What follows `\\.\`. -/
def afterDevice : List Char → Option (List Char)
  | a :: b :: c :: d :: rest => if isSep a ∧ isSep b ∧ c = '.' ∧ isSep d then some rest else none
  | _ => none

/-- What follows `UNC\`. -/
def afterUNC : List Char → Option (List Char)
  | a :: b :: c :: d :: rest => if a = 'U' ∧ b = 'N' ∧ c = 'C' ∧ isSep d then some rest else none
  | _ => none

/-- The letter of a drive, in upper case. -/
def drive : List Char → Option Char
  | c :: d :: _ => if c.isAlpha ∧ d = ':' then some c.toUpper else none
  | _ => none

/-- The letter of a drive that is the whole first component. -/
def exactDrive (path : List Char) : Option Char :=
  if (path[2]?.map isSep).getD true then drive path else none

/-- The prefix of a path. -/
def prefixOf (path : List Char) : Option Prefix :=
  match afterVerbatim path with
  | some rest =>
      match afterUNC rest with
      | some names =>
          let server := nextComponent isVerbatimSep names
          let share := nextComponent isVerbatimSep server.2
          some (.verbatimUNC server.1 share.1)
      | none =>
          match exactDrive rest with
          | some letter => some (.verbatimDisk letter)
          | none => some (.verbatim (nextComponent isVerbatimSep rest).1)
  | none =>
      match afterDevice path with
      | some rest => some (.deviceNS (nextComponent isSep rest).1)
      | none =>
          match afterDouble path with
          | some names =>
              let server := nextComponent isSep names
              let share := nextComponent isSep server.2
              if server.1 ≠ [] ∧ share.1 ≠ [] then some (.unc server.1 share.1) else none
          | none => (drive path).map .disk

/-! ### What follows the prefix does not change it -/

theorem exists_cons_four {raw : List Char} (h : 4 ≤ raw.length) :
    ∃ a b c d u, raw = a :: b :: c :: d :: u := by
  match raw, h with
  | a :: b :: c :: d :: u, _ => exact ⟨a, b, c, d, u, rfl⟩

theorem afterUNC_swap {u r : List Char} {s s' : Char} (hs : isSep s = true) (hs' : isSep s' = true)
    (h : afterUNC (u ++ s :: r) = none) (x : List Char) : afterUNC (u ++ s' :: x) = none := by
  have hne : s' ≠ 'U' ∧ s' ≠ 'N' ∧ s' ≠ 'C' := by
    rw [isSep, Bool.or_eq_true, beq_iff_eq, beq_iff_eq] at hs'
    rcases hs' with rfl | rfl <;> decide
  match u with
  | [] =>
      match x with
      | [] | [_] | [_, _] => rfl
      | _ :: _ :: _ :: _ => exact if_neg fun hc => hne.1 hc.1
  | [_] =>
      match x with
      | [] | [_] => rfl
      | _ :: _ :: _ => exact if_neg fun hc => hne.2.1 hc.2.1
  | [_, _] =>
      match x with
      | [] => rfl
      | _ :: _ => exact if_neg fun hc => hne.2.2 hc.2.2.1
  | [a, b, c] =>
      -- the separator may end the marker, and every separator does
      simp [afterUNC, hs] at h
      simp [afterUNC, hs']
      exact h
  | a :: b :: c :: d :: u =>
      simp [afterUNC] at h
      simp [afterUNC]
      exact h

theorem exactDrive_swap {u r : List Char} {s s' : Char} (hs : isSep s = true)
    (hs' : isSep s' = true) (x : List Char) :
    exactDrive (u ++ s' :: x) = exactDrive (u ++ s :: r) := by
  have hcolon : ∀ {t : Char}, isSep t = true → t ≠ ':' := by
    intro t ht h
    rw [h] at ht
    exact absurd ht (by decide)
  have halpha : ∀ {t : Char}, isSep t = true → t.isAlpha = false := by
    intro t ht
    rw [isSep, Bool.or_eq_true, beq_iff_eq, beq_iff_eq] at ht
    rcases ht with rfl | rfl <;> decide
  match u with
  | [] =>
      have hnone : ∀ {t : Char} (y : List Char), isSep t = true → exactDrive (t :: y) = none := by
        intro t y ht
        match y with
        | [] => simp [exactDrive, drive]
        | _ :: _ => simp [exactDrive, drive, halpha ht]
      exact (hnone x hs').trans (hnone r hs).symm
  | [a] => simp [exactDrive, drive, hcolon hs, hcolon hs']
  | [a, b] => simp [exactDrive, drive, hs, hs']
  | a :: b :: c :: u => simp [exactDrive, drive]

/-- A component that fills the text in front of `s` is read the same in front of every separator. -/
theorem nextComponent_swap {sep : Char → Bool} {u r : List Char} {s s' : Char}
    (hlen : u.length = (nextComponent sep (u ++ s :: r)).1.length)
    (hs' : sep s = true → sep s' = true) (x : List Char) :
    (nextComponent sep (u ++ s' :: x)).1 = (nextComponent sep (u ++ s :: r)).1 := by
  obtain ⟨hall, hs⟩ := nextComponent_length hlen
  rw [nextComponent_append hall hs, nextComponent_append hall (hs' hs)]

/-- Two components that fill the text in front of `s` are read the same in front of every
separator. -/
theorem nextComponent_twice {sep : Char → Bool} {u r : List Char} {s s' : Char}
    {server share : List Char} (hserver : (nextComponent sep (u ++ s :: r)).1 = server)
    (hshare : (nextComponent sep (nextComponent sep (u ++ s :: r)).2).1 = share)
    (hlen : u.length = server.length + (1 + share.length)) (hs' : sep s = true → sep s' = true)
    (x : List Char) :
    (nextComponent sep (u ++ s' :: x)).1 = server ∧
      (nextComponent sep (nextComponent sep (u ++ s' :: x)).2).1 = share := by
  have hsplit : u = server ++ u.drop server.length := by
    have hpre : server <+: u ++ s :: r := by
      rw [← hserver]
      exact List.takeWhile_prefix _
    have hle := List.prefix_of_prefix_length_le hpre (List.prefix_append u _) (by omega)
    obtain ⟨v, rfl⟩ := hle
    rw [List.drop_left]
  match hdrop : u.drop server.length with
  | [] =>
      have hzero := congrArg List.length hdrop
      rw [List.length_drop, List.length_nil] at hzero
      omega
  | d :: v =>
      rw [hdrop] at hsplit
      have hv : v.length = share.length := by
        have hl := congrArg List.length hsplit
        rw [List.length_append, List.length_cons] at hl
        omega
      rw [hsplit, List.append_assoc, List.cons_append] at hserver hshare
      obtain ⟨hall, hd⟩ := nextComponent_length (by rw [hserver] : server.length = _)
      rw [nextComponent_append hall hd] at hshare
      obtain ⟨hall', hs⟩ := nextComponent_length (by rw [hshare, hv] : v.length = _)
      rw [nextComponent_append hall' hs] at hshare
      rw [hsplit, List.append_assoc, List.cons_append, nextComponent_append hall hd]
      show server = server ∧ (nextComponent sep (v ++ s' :: x)).1 = share
      rw [nextComponent_append hall' (hs' hs)]
      exact ⟨rfl, hshare⟩

/-- A colon in the second place leaves only a drive. -/
theorem prefixOf_colon (a : Char) (x : List Char) :
    prefixOf (a :: ':' :: x) = (drive (a :: ':' :: x)).map .disk := by
  have hverb : afterVerbatim (a :: ':' :: x) = none := by
    match x with
    | [] | [_] => rfl
    | _ :: _ :: _ => exact if_neg fun h => absurd h.2.1 (by decide)
  have hdev : afterDevice (a :: ':' :: x) = none := by
    match x with
    | [] | [_] => rfl
    | _ :: _ :: _ => exact if_neg fun h => absurd h.2.1 (by decide)
  have hdouble : afterDouble (a :: ':' :: x) = none := by
    simp [afterDouble, show isSep ':' = false from rfl]
  simp only [prefixOf, hverb, hdev, hdouble]

/-- **What follows the separator behind a prefix does not change the prefix.** -/
theorem prefixOf_swap {raw r : List Char} {s s' : Char} {p : Prefix}
    (h : prefixOf (raw ++ s :: r) = some p) (hlen : raw.length = p.len) (hwhole : p.Whole)
    (hs : isSep s = true) (hs' : s' = '\\' ∨ s' = s) (x : List Char) :
    prefixOf (raw ++ s' :: x) = some p := by
  have hsep' : isSep s' = true := by
    cases hs' with
    | inl heq => rw [heq]; rfl
    | inr heq => rw [heq]; exact hs
  have hkeep : isVerbatimSep s = true → isVerbatimSep s' = true := by
    intro hv
    cases hs' with
    | inl heq => rw [heq]; rfl
    | inr heq => rw [heq]; exact hv
  unfold prefixOf at h
  split at h
  next rest hverb =>
    have hfour : 4 ≤ raw.length := by
      rw [hlen]
      split at h
      · rw [← Option.some.inj h, Prefix.len]
        omega
      · split at h
        · rw [← Option.some.inj h, Prefix.len]
          omega
        · rw [← Option.some.inj h, Prefix.len]
          omega
    obtain ⟨a, b, c, d, u, rfl⟩ := exists_cons_four hfour
    have hverb' : afterVerbatim (a :: b :: c :: d :: u ++ s' :: x) = some (u ++ s' :: x) := by
      simp [afterVerbatim] at hverb ⊢
      exact hverb.1
    obtain rfl : u ++ s :: r = rest := by
      simp [afterVerbatim] at hverb
      exact hverb.2
    rw [List.length_cons, List.length_cons, List.length_cons, List.length_cons] at hlen
    split at h
    next names hunc =>
      -- a share
      obtain rfl := Option.some.inj h
      rw [Prefix.len, if_pos (List.length_pos_of_ne_nil hwhole)] at hlen
      obtain ⟨e, f, g, i, v, rfl⟩ := exists_cons_four (show 4 ≤ u.length by omega)
      have hunc' : afterUNC (e :: f :: g :: i :: v ++ s' :: x) = some (v ++ s' :: x) := by
        simp [afterUNC] at hunc ⊢
        exact hunc.1
      obtain rfl : v ++ s :: r = names := by
        simp [afterUNC] at hunc
        exact hunc.2
      rw [List.length_cons, List.length_cons, List.length_cons, List.length_cons] at hlen
      have htwice := nextComponent_twice (u := v) (r := r) (s := s) rfl rfl (by omega) hkeep x
      simp only [prefixOf, hverb', hunc', htwice.1, htwice.2]
    next hunc =>
      have hunc' := afterUNC_swap hs hsep' hunc x
      have hdrive' := exactDrive_swap (u := u) (r := r) hs hsep' x
      split at h
      next letter hdrive =>
        -- a drive
        rw [hdrive] at hdrive'
        simp only [prefixOf, hverb', hunc', hdrive']
        exact h
      next hdrive =>
        -- any other name
        obtain rfl := Option.some.inj h
        rw [Prefix.len] at hlen
        have hnext := nextComponent_swap (u := u) (r := r) (by omega) hkeep x
        rw [hdrive] at hdrive'
        simp only [prefixOf, hverb', hunc', hdrive', hnext]
  next hverb =>
    split at h
    next rest hdev =>
      -- a device
      obtain rfl := Option.some.inj h
      rw [Prefix.len] at hlen
      obtain ⟨a, b, c, d, u, rfl⟩ := exists_cons_four (show 4 ≤ raw.length by omega)
      have hverb' : afterVerbatim (a :: b :: c :: d :: u ++ s' :: x) = none := by
        simp [afterVerbatim] at hverb ⊢
        exact hverb
      have hdev' : afterDevice (a :: b :: c :: d :: u ++ s' :: x) = some (u ++ s' :: x) := by
        simp [afterDevice] at hdev ⊢
        exact hdev.1
      obtain rfl : u ++ s :: r = rest := by
        simp [afterDevice] at hdev
        exact hdev.2
      rw [List.length_cons, List.length_cons, List.length_cons, List.length_cons] at hlen
      have hnext := nextComponent_swap (u := u) (r := r) (s := s) (by omega) (fun _ => hsep') x
      simp only [prefixOf, hverb', hdev', hnext]
    next hdev =>
      split at h
      next names hdouble =>
        -- a share of the network
        simp only at h
        split at h
        next hne =>
          obtain rfl := Option.some.inj h
          have hpos := List.length_pos_of_ne_nil hne.1
          rw [Prefix.len, if_pos (List.length_pos_of_ne_nil hne.2)] at hlen
          obtain ⟨a, b, c, d, u, rfl⟩ := exists_cons_four (show 4 ≤ raw.length by omega)
          have hverb' : afterVerbatim (a :: b :: c :: d :: u ++ s' :: x) = none := by
            simp [afterVerbatim] at hverb ⊢
            exact hverb
          have hdev' : afterDevice (a :: b :: c :: d :: u ++ s' :: x) = none := by
            simp [afterDevice] at hdev ⊢
            exact hdev
          have hdouble' :
              afterDouble (a :: b :: c :: d :: u ++ s' :: x) = some (c :: d :: u ++ s' :: x) := by
            simp [afterDouble] at hdouble ⊢
            exact hdouble.1
          obtain rfl : c :: d :: u ++ s :: r = names := by
            simp [afterDouble] at hdouble
            exact hdouble.2
          rw [List.length_cons, List.length_cons] at hlen
          have htwice :=
            nextComponent_twice (u := c :: d :: u) (r := r) (s := s) rfl rfl
            (by omega) (fun _ => hsep') x
          simp only [prefixOf, hverb', hdev', hdouble', htwice.1, htwice.2, if_pos hne]
        next => cases h
      next hdouble =>
        -- a drive
        match hdrive : drive (raw ++ s :: r), h with
        | some letter, h =>
            obtain rfl := Option.some.inj h
            obtain ⟨a, b, rfl⟩ : ∃ a b, raw = [a, b] := List.length_eq_two.mp hlen
            have hcolon : b = ':' := by
              simp [drive] at hdrive
              exact hdrive.1.2
            rw [hcolon] at hdrive ⊢
            show prefixOf (a :: ':' :: s' :: x) = some (.disk letter)
            rw [prefixOf_colon]
            exact congrArg (Option.map Prefix.disk) hdrive

/-- Whether a path says from where it starts. -/
def hasRoot (path : List Char) : Bool :=
  match prefixOf path with
  | some p => startsWithSep (path.drop p.len) || p.hasImplicitRoot
  | none => startsWithSep path

/-! ### Components -/

/-- What a path consists of. -/
inductive Component where
  | prefix_ (raw : List Char) (parsed : Prefix)
  | rootDir
  | curDir
  | parentDir
  | normal (name : List Char)
deriving DecidableEq

/-- One component: `.` stands for itself in a verbatim path only. -/
def single (verbatim : Bool) (name : List Char) : Option Component :=
  if name = ['.'] then (if verbatim then some .curDir else none)
  else if name = ['.', '.'] then some .parentDir
  else if name = [] then none
  else some (.normal name)

/-- The separator of a path. -/
def bodySep (verbatim : Bool) : Char → Bool :=
  if verbatim then isVerbatimSep else isSep

/-- The components behind prefix and root. -/
def body (verbatim : Bool) (path : List Char) : List Component :=
  (path.splitOnP (bodySep verbatim)).filterMap (single verbatim)

/-- Whether a path without prefix and root starts with the component `.`. -/
def startsWithDot : List Char → Bool
  | ['.'] => true
  | '.' :: c :: _ => isSep c
  | _ => false

/-- The components of a path. -/
def components (path : List Char) : List Component :=
  match prefixOf path with
  | some p =>
      let rest := path.drop p.len
      .prefix_ (path.take p.len) p ::
        if startsWithSep rest then .rootDir :: body p.isVerbatim (rest.drop 1)
        else if p.hasImplicitRoot && !p.isVerbatim then .rootDir :: body p.isVerbatim rest
        else body p.isVerbatim rest
  | none =>
      if startsWithSep path then .rootDir :: body false (path.drop 1)
      else if startsWithDot path then .curDir :: body false (path.drop 1)
      else body false path

/-- No piece of a split path has a separator. -/
theorem not_sep_of_mem_split {sep : Char → Bool} {path name : List Char}
    (h : name ∈ path.splitOnP sep) :
    ∀ c ∈ name, sep c = false := by
  induction path generalizing name with
  | nil =>
      rw [List.splitOnP_nil, List.mem_singleton] at h
      intro c hc
      rw [h] at hc
      exact absurd hc List.not_mem_nil
  | cons d path ih =>
      rw [List.splitOnP_cons_eq_if_modifyHead] at h
      cases hd : sep d with
      | true =>
          rw [if_pos hd, List.mem_cons] at h
          cases h with
          | inl heq =>
              intro c hc
              rw [heq] at hc
              exact absurd hc List.not_mem_nil
          | inr hmem => exact ih hmem
      | false =>
          obtain ⟨first, rest, hsplit⟩ := List.exists_cons_of_ne_nil (List.splitOnP_ne_nil sep path)
          rw [if_neg (by rw [hd]; exact Bool.false_ne_true), hsplit, List.modifyHead_cons,
            List.mem_cons] at h
          cases h with
          | inl heq =>
              intro c hc
              rw [heq, List.mem_cons] at hc
              cases hc with
              | inl hcd => rw [hcd, hd]
              | inr hcf => exact ih (hsplit ▸ List.mem_cons_self) c hcf
          | inr hmem => exact ih (hsplit ▸ List.mem_cons_of_mem first hmem)

/-- A name that a path can have: not empty, no `.`, no `..`, and no separator. -/
structure Proper (verbatim : Bool) (name : List Char) : Prop where
  ne_nil : name ≠ []
  ne_dot : name ≠ ['.']
  ne_dots : name ≠ ['.', '.']
  no_sep : ∀ c ∈ name, bodySep verbatim c = false

@[simp] theorem body_nil (verbatim : Bool) : body verbatim [] = [] := by
  cases verbatim <;> rfl

/-- A separator divides a body. -/
theorem body_append {verbatim : Bool} {s : Char} (hs : bodySep verbatim s = true)
    (x y : List Char) :
    body verbatim (x ++ s :: y) = body verbatim x ++ body verbatim y := by
  show ((x ++ s :: y).splitOnP (bodySep verbatim)).filterMap _ = _
  rw [List.splitOnP_append_cons x y hs, List.filterMap_append]
  rfl

/-- A text without separator is one component. -/
theorem body_of_no_sep {verbatim : Bool} {name : List Char}
    (h : ∀ c ∈ name, bodySep verbatim c = false) :
    body verbatim name = (single verbatim name).toList := by
  show (name.splitOnP (bodySep verbatim)).filterMap _ = _
  rw [List.splitOnP_eq_singleton h]
  cases hs : single verbatim name with
  | none => simp [hs]
  | some c => simp [hs]

theorem single_normal_iff {verbatim : Bool} {text name : List Char} :
    single verbatim text = some (.normal name) ↔
      text = name ∧ name ≠ [] ∧ name ≠ ['.'] ∧ name ≠ ['.', '.'] := by
  unfold single
  constructor
  · intro h
    split at h
    · split at h <;> cases h
    · split at h
      · cases h
      · split at h
        · cases h
        · obtain rfl := Component.normal.inj (Option.some.inj h)
          exact ⟨rfl, ‹_›, ‹_›, ‹_›⟩
  · intro h
    rw [h.1, if_neg h.2.2.1, if_neg h.2.2.2, if_neg h.2.1]

theorem mem_body {verbatim : Bool} {path name : List Char} (h : .normal name ∈ body verbatim path) :
    Proper verbatim name := by
  obtain ⟨text, hmem, hsingle⟩ := List.mem_filterMap.mp h
  obtain ⟨rfl, hne, hdot, hdots⟩ := single_normal_iff.mp hsingle
  exact ⟨hne, hdot, hdots, not_sep_of_mem_split hmem⟩

theorem components_rooted {path : List Char} {p : Prefix} (hp : prefixOf path = some p)
    (hroot : startsWithSep (path.drop p.len) = true) :
    components path =
      .prefix_ (path.take p.len) p :: .rootDir :: body p.isVerbatim ((path.drop p.len).drop 1) := by
  unfold components
  rw [hp]
  simp only [if_pos hroot]

/-- A path that is one name has neither prefix nor root. -/
theorem components_single {path name : List Char} (h : components path = [.normal name]) :
    prefixOf path = none ∧ hasRoot path = false ∧ body false path = [.normal name] := by
  unfold components at h
  unfold hasRoot
  split at h
  next p hp => cases (List.cons.inj h).1
  next hp =>
    rw [hp]
    split at h
    next hroot => cases (List.cons.inj h).1
    next hroot =>
      split at h
      next => cases (List.cons.inj h).1
      next => exact ⟨rfl, Bool.eq_false_iff.mpr hroot, h⟩

/-! ### Joining -/

namespace Component

/-- The text of a component. -/
def text : Component → List Char
  | prefix_ raw _ => raw
  | rootDir => ['\\']
  | curDir => ['.']
  | parentDir => ['.', '.']
  | normal name => name

/-- Whether a separator follows the component. -/
def needsSep : Component → Bool
  | prefix_ _ parsed => match parsed with
      | .disk _ => false
      | _ => true
  | rootDir => false
  | _ => true

end Component

/-- The text of a list of components. -/
def render : Bool → List Component → List Char
  | _, [] => []
  | needSep, c :: cs =>
      (if needSep ∧ c ≠ .rootDir then ['\\'] else []) ++ (c.text ++ render c.needsSep cs)

/-- One component of a path appended to those of a verbatim path. -/
def pushComponent (buf : List Component) : Component → List Component
  | .rootDir => buf.take 1 ++ [.rootDir]
  | .curDir => buf
  | .parentDir => match buf.getLast? with
      | some (.normal _) => buf.dropLast
      | _ => buf
  | c => buf ++ [c]

/-- Whether a separator has to be written behind a path. -/
def needsSep (base : List Char) : Bool :=
  match prefixOf base with
  | some (.disk _) => base.length ≠ 2 && !(base.getLast?.map isSep).getD true
  | _ => !(base.getLast?.map isSep).getD true

/-- A path appended to a directory. -/
def join (base path : List Char) : List Char :=
  if (prefixOf path).isSome then path
  else
    match prefixOf base with
    | some p =>
        if p.isVerbatim ∧
          path ≠ [] then render false ((components path).foldl pushComponent (components base))
        else if hasRoot path then base.take p.len ++ path
        else if needsSep base then base ++ '\\' :: path
        else base ++ path
    | none =>
        if hasRoot path then path
        else if needsSep base then base ++ '\\' :: path
        else base ++ path

/-- What a component of a verbatim body is written as is read as that component. -/
theorem readable_of_mem_body {path : List Char} {c : Component} (h : c ∈ body true path) :
    single true c.text = some c ∧ (∀ x ∈ c.text, isVerbatimSep x = false) ∧ c ≠ .rootDir := by
  obtain ⟨text, hmem, hsingle⟩ := List.mem_filterMap.mp h
  have hno := not_sep_of_mem_split hmem
  have htext : c.text = text ∧ c ≠ .rootDir := by
    unfold single at hsingle
    split at hsingle
    next hdot =>
      rw [if_pos rfl] at hsingle
      obtain rfl := Option.some.inj hsingle
      exact ⟨hdot.symm, nofun⟩
    next =>
      split at hsingle
      next hdots =>
        obtain rfl := Option.some.inj hsingle
        exact ⟨hdots.symm, nofun⟩
      next =>
        split at hsingle
        next => cases hsingle
        next =>
          obtain rfl := Option.some.inj hsingle
          exact ⟨rfl, nofun⟩
  rw [htext.1]
  exact ⟨hsingle, hno, htext.2⟩

theorem render_cons (needSep : Bool) {c : Component} (hc : c ≠ .rootDir) (cs : List Component) :
    render needSep (c :: cs) = (if needSep then ['\\'] else []) ++
      (c.text ++ render c.needsSep cs) := by
  rw [render]
  simp [hc]

theorem render_rooted (raw : List Char) (p : Prefix) (cs : List Component) :
    render false (.prefix_ raw p :: .rootDir :: cs) = raw ++ '\\' :: render false cs := by
  simp [render, Component.text, Component.needsSep]

/-- Components that are written with separators between them are read back. -/
theorem body_render {cs : List Component}
    (h : ∀ c ∈ cs, single true c.text = some c ∧
    (∀ x ∈ c.text, isVerbatimSep x = false) ∧ c ≠ .rootDir) :
    body true (render false cs) = cs := by
  induction cs with
  | nil => rfl
  | cons c cs ih =>
      obtain ⟨hread, hno, hroot⟩ := h c List.mem_cons_self
      have hone : body true c.text = [c] := by
        rw [body_of_no_sep (show ∀ x ∈ c.text, bodySep true x = false from hno), hread]
        rfl
      have hrest := ih fun d hd => h d (List.mem_cons_of_mem c hd)
      have hsep : c.needsSep = true := by
        match c, hread with
        | .curDir, _ | .parentDir, _ | .normal _, _ => rfl
        | .rootDir, _ => exact absurd rfl hroot
        | .prefix_ raw p, hread =>
            unfold single at hread
            split at hread
            · cases hread
            · split at hread
              · cases hread
              · split at hread <;> cases hread
      rw [render_cons false hroot, hsep]
      show body true (c.text ++ render true cs) = c :: cs
      match cs, hrest with
      | [], _ =>
          rw [show render true [] = [] from rfl, List.append_nil]
          exact hone
      | d :: ds, hrest =>
          have hd := (h d (List.mem_cons_of_mem c List.mem_cons_self)).2.2
          rw [render_cons false hd] at hrest
          rw [render_cons true hd]
          show body true (c.text ++ '\\' :: (d.text ++ render d.needsSep ds)) = c :: d :: ds
          rw [body_append rfl, hone]
          exact congrArg (c :: ·) hrest

/-- An absolute path on a whole volume, as the documented ones of Windows are. -/
def FullyQualified (path : List Char) : Prop :=
  ∃ p, prefixOf path = some p ∧ p.Whole ∧ startsWithSep (path.drop p.len) = true

theorem FullyQualified.split {path : List Char} (h : FullyQualified path) :
    ∃ p raw s r, path = raw ++ s :: r ∧ prefixOf (raw ++ s :: r) = some p ∧
      raw.length = p.len ∧ p.Whole ∧
      isSep s = true := by
  obtain ⟨p, hp, hwhole, hroot⟩ := h
  match hdrop : path.drop p.len, hroot with
  | s :: r, hroot =>
      have hpath : path = path.take p.len ++ s :: r := by
        rw [← hdrop, List.take_append_drop]
      have hlen := congrArg List.length hdrop
      rw [List.length_drop, List.length_cons] at hlen
      refine ⟨p, path.take p.len, s, r, hpath, hpath ▸ hp, ?_, hwhole, hroot⟩
      rw [List.length_take]
      omega

section Rooted

variable {raw r : List Char} {s : Char} {p : Prefix}

theorem FullyQualified.of_split (hp : prefixOf (raw ++ s :: r) = some p) (hlen : raw.length = p.len)
    (hwhole : p.Whole) (hs : isSep s = true) : FullyQualified (raw ++ s :: r) := by
  refine ⟨p, hp, hwhole, ?_⟩
  rw [← hlen, List.drop_left]
  exact hs

theorem components_split (hp : prefixOf (raw ++ s :: r) = some p) (hlen : raw.length = p.len)
    (hs : isSep s = true) :
    components (raw ++ s :: r) = .prefix_ raw p :: .rootDir :: body p.isVerbatim r := by
  have hdrop : (raw ++ s :: r).drop p.len = s :: r := by
    rw [← hlen, List.drop_left]
  rw [components_rooted hp (by rw [hdrop]; exact hs), hdrop, ← hlen, List.take_left]
  rfl

/-- Behind the root only the last character decides whether a separator is written. -/
theorem needsSep_split (hp : prefixOf (raw ++ s :: r) = some p) (hlen : raw.length = p.len) :
    needsSep (raw ++ s :: r) = !isSep ((s :: r).getLast (List.cons_ne_nil s r)) := by
  have hlast :
      ((raw ++ s :: r).getLast?.map isSep).getD true =
      isSep ((s :: r).getLast (List.cons_ne_nil s r)) := by
    rw [List.getLast?_append_of_ne_nil _ (List.cons_ne_nil s r),
      List.getLast?_eq_getLast_of_ne_nil (List.cons_ne_nil s r)]
    rfl
  unfold needsSep
  rw [hp, hlast]
  split
  next letter hdisk =>
    have htwo : raw.length = 2 := by
      rw [hlen, Option.some.inj hdisk]
      rfl
    have hne : (raw ++ s :: r).length ≠ 2 := by
      rw [List.length_append, List.length_cons]
      omega
    rw [decide_eq_true hne]
    rfl
  next => rfl

/-- A separator at the end of a body adds nothing to it. -/
theorem body_append_path {path : List Char}
    (hlast : isSep ((s :: r).getLast (List.cons_ne_nil s r)) = true) :
    body false (r ++ path) = body false r ++ body false path := by
  cases r using List.reverseRecOn with
  | nil =>
      rw [body_nil]
      rfl
  | append_singleton front last =>
      have hsep : bodySep false last = true := by
        show isSep last = true
        simpa using hlast
      rw [List.append_assoc]
      show body false (front ++ last :: path) = body false (front ++ last :: []) ++ body false path
      rw [body_append hsep, body_append hsep, body_nil, List.append_nil]

end Rooted

/-- A relative path does not replace the directory. -/
theorem join_relative {base path : List Char} {p : Prefix} (hp : prefixOf base = some p)
    (hnone : prefixOf path = none) (hrel : hasRoot path = false) (hne : path ≠ []) :
    join base path =
      if p.isVerbatim then render false ((components path).foldl pushComponent (components base))
      else if needsSep base then base ++ '\\' :: path
      else base ++ path := by
  unfold join
  simp [hp, hnone, hrel, hne]

/-- The components of a verbatim directory are written anew, each behind a backslash. -/
theorem render_push {raw r name : List Char} {p : Prefix} :
    render false ([.normal name].foldl pushComponent (.prefix_ raw p :: .rootDir :: body true r)) =
      raw ++ '\\' :: render false (body true r ++ [.normal name]) :=
  render_rooted raw p _

theorem body_push {r name : List Char} (hname : Proper false name) :
    body true (render false (body true r ++ [.normal name])) = body true r ++ [.normal name] := by
  apply body_render
  intro c hc
  cases List.mem_append.mp hc with
  | inl hold => exact readable_of_mem_body hold
  | inr hnew =>
      obtain rfl := List.mem_singleton.mp hnew
      refine ⟨single_normal_iff.mpr ⟨rfl, hname.ne_nil, hname.ne_dot, hname.ne_dots⟩, ?_, nofun⟩
      intro x hx
      cases hv : isVerbatimSep x with
      | false => rfl
      | true => exact absurd (isSep_of_isVerbatimSep hv) (Bool.eq_false_iff.mp (hname.no_sep x hx))

/-- **A path with one name, joined to a fully qualified directory, is a child of the directory.** -/
theorem components_join {base path name : List Char} (hbase : FullyQualified base)
    (hpath : components path = [.normal name]) :
    components (join base path) = components base ++ [.normal name] ∧
      FullyQualified (join base path) := by
  obtain ⟨p, raw, s, r, rfl, hp, hlen, hwhole, hs⟩ := hbase.split
  obtain ⟨hnone, hrel, hbody⟩ := components_single hpath
  have hmem : Component.normal name ∈ body false path := by
    rw [hbody]
    exact List.mem_singleton_self _
  have hname : Proper false name := mem_body hmem
  have hne : path ≠ [] := by
    intro h
    rw [h, body_nil] at hbody
    cases hbody
  have hcomps := components_split hp hlen hs
  rw [join_relative hp hnone hrel hne]
  cases hverb : p.isVerbatim with
  | true =>
      have hswap : ∀ x, prefixOf (raw ++ '\\' :: x) = some p :=
        prefixOf_swap hp hlen hwhole hs (.inl rfl)
      rw [hverb] at hcomps
      rw [if_pos rfl, hpath, hcomps, render_push]
      constructor
      · rw [components_split (hswap _) hlen rfl, hverb, body_push hname]
        rfl
      · exact .of_split (hswap _) hlen hwhole rfl
  | false =>
      have hsame := prefixOf_swap hp hlen hwhole hs (.inr rfl)
      rw [hverb] at hcomps
      rw [if_neg Bool.false_ne_true, needsSep_split hp hlen, hcomps,
        List.append_assoc, List.append_assoc,
        List.cons_append, List.cons_append]
      cases hlast : isSep ((s :: r).getLast (List.cons_ne_nil s r)) with
      | true =>
          show components (raw ++ s :: (r ++ path)) = _ ∧ FullyQualified (raw ++ s :: (r ++ path))
          constructor
          · rw [components_split (hsame _) hlen hs, hverb, body_append_path hlast, hbody]
            rfl
          · exact .of_split (hsame _) hlen hwhole hs
      | false =>
          show components (raw ++ s :: (r ++ '\\' :: path)) = _ ∧
              FullyQualified (raw ++ s :: (r ++ '\\' :: path))
          constructor
          · rw [components_split (hsame _) hlen hs, hverb, body_append rfl, hbody]
            rfl
          · exact .of_split (hsame _) hlen hwhole hs

end WindowsPath
