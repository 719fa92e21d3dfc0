import SlotBus.Foundation.Completion

/-!
# Fair runs

Runs that go on for ever, and what must happen in them if every thread that can go on gets its turn.

* `InfiniteRun`, `InfiniteRun.Fair` — runs without end, and weak fairness;
* `LeadsTo` — wherever `P` holds, `Q` holds then or later; `LeadsTo.of_unless` — what stays until
  `Q`, and does not stay for ever, leads to `Q`;
* `Fair.eventually_done` — **every program that cannot get stuck is completed** once it is begun;
* `Program.Leads`, `Relaunches.again` — what every path through a program performs, a thread that is
  launched again and again performs again and again.
-/

namespace AtomicProgram

variable {S : Signature} {Thread State Choice Launch α β : Type}

/-! ### What every path through a program performs -/

/-- Every path on which the answers are possible performs an action that satisfies `B`, with its
answer. -/
def Program.Leads (possible B : (a : S.Action) → S.Answer a → Prop) : Program S α → Prop
  | .done _ => False
  | .act a k => ∀ r, possible a r → B a r ∨ (k r).Leads possible B

section Leads

variable {possible B : (a : S.Action) → S.Answer a → Prop}

theorem Program.Leads.bind {p : Program S α} (hp : p.Leads possible B) (f : α → Program S β) :
    (p >>= f).Leads possible B := by
  induction p with
  | done v => exact hp.elim
  | act a k ih =>
      intro r hr
      exact (hp r hr).imp_right (ih r)

/-- What comes before does not matter. -/
theorem Program.Leads.of_rest (p : Program S α) {f : α → Program S β}
    (hf : ∀ v, (f v).Leads possible B) :
    (p >>= f).Leads possible B := by
  induction p with
  | done v => exact hf v
  | act a k ih =>
      intro r _
      exact .inr (ih r)

end Leads

/-! ### Runs without end -/

section Runs

variable [DecidableEq Thread]

/-- A run that goes on for ever: the configurations, and the scheduling decision in each of them. -/
structure InfiniteRun (M : System S Thread State Choice Launch)
    (D : Discipline S Thread State Launch) where
  config : ℕ → Configuration S Thread State
  move : ℕ → Move Thread Choice Launch
  takes : ∀ n, D.Takes (config n) (move n)
  next : ∀ n, M.next (move n) (config n) = some (config (n + 1))

namespace InfiniteRun

variable {M : System S Thread State Choice Launch} {D : Discipline S Thread State Launch}
    (ρ : InfiniteRun M D)

/-- The next action of the thread is possible. -/
def Enabled (M : System S Thread State Choice Launch) (t : Thread)
    (σ : Configuration S Thread State) :
    Prop :=
  ∃ c σ', M.next (.run t c) σ = some σ'

/-- **Weak fairness**: a thread that can go on, and still can as long as it has no turn, gets its
turn. -/
def Fair : Prop :=
  ∀ t n, (∀ m, n ≤ m → Enabled M t (ρ.config m)) → ∃ m, n ≤ m ∧ ∃ c, ρ.move m = .run t c

/-- The thread is launched again and again. -/
def Relaunches (t : Thread) : Prop :=
  ∀ n, ∃ m, n ≤ m ∧ ∃ e p s', ρ.move m = .launch e ∧ M.launch e (ρ.config m).state = some (t, p, s')

/-- Wherever `P` holds, `Q` holds then or later. -/
def LeadsTo (P Q : Configuration S Thread State → Prop) : Prop :=
  ∀ n, P (ρ.config n) → ∃ m, n ≤ m ∧ Q (ρ.config m)

variable {ρ} {P Q R : Configuration S Thread State → Prop}

theorem step (n : ℕ) : Step M D (ρ.config n) (ρ.config (n + 1)) := ⟨ρ.move n, ρ.takes n, ρ.next n⟩

theorem reachable (n : ℕ) : Reachable M D (ρ.config 0) (ρ.config n) := by
  induction n with
  | zero => exact .refl
  | succ n ih => exact ih.tail (step n)

/-! ### Leads to -/

theorem LeadsTo.of_imp (h : ∀ σ, P σ → Q σ) : ρ.LeadsTo P Q := fun n hn => ⟨n, le_rfl, h _ hn⟩

theorem LeadsTo.trans (h : ρ.LeadsTo P Q) (h' : ρ.LeadsTo Q R) : ρ.LeadsTo P R := by
  intro n hn
  obtain ⟨m, hm, hq⟩ := h n hn
  obtain ⟨k, hk, hr⟩ := h' m hq
  exact ⟨k, hm.trans hk, hr⟩

theorem LeadsTo.or (h : ρ.LeadsTo P R) (h' : ρ.LeadsTo Q R) : ρ.LeadsTo (fun σ => P σ ∨ Q σ) R := by
  intro n hn
  exact hn.elim (h n) (h' n)

theorem LeadsTo.exists {ι : Sort*} {P : ι → Configuration S Thread State → Prop}
    (h : ∀ x, ρ.LeadsTo (P x) Q) :
    ρ.LeadsTo (fun σ => ∃ x, P x σ) Q := by
  intro n hn
  obtain ⟨x, hx⟩ := hn
  exact h x n hx

/-- **What stays until `Q`, and does not stay for ever, leads to `Q`.** -/
theorem LeadsTo.of_unless (hunless : ∀ n, P (ρ.config n) → P (ρ.config (n + 1)) ∨
    Q (ρ.config (n + 1)))
    (hends : ∀ n, P (ρ.config n) → ∃ m, n ≤ m ∧ ¬P (ρ.config m)) : ρ.LeadsTo P Q := by
  intro n hn
  obtain ⟨m, hm, hno⟩ := hends n hn
  obtain ⟨d, rfl⟩ := Nat.exists_eq_add_of_le hm
  clear hm
  induction d generalizing n with
  | zero => exact absurd hn hno
  | succ d ih =>
      rcases hunless n hn with hp | hq
      · obtain ⟨k, hk, hq⟩ := ih (n + 1) hp (by rwa [Nat.add_right_comm])
        exact ⟨k, by omega, hq⟩
      · exact ⟨n + 1, by omega, hq⟩

/-! ### Turns -/

/-- A thread that is not given a turn stays where it is. -/
theorem program_of_no_turn {n : ℕ} {t : Thread} {a : S.Action} {k : S.Answer a → Program S Unit}
    (hp : (ρ.config n).program t = .act a k) (hmove : ∀ c, ρ.move n ≠ .run t c) :
    (ρ.config (n + 1)).program t = .act a k := by
  have hnext := ρ.next n
  cases hm : ρ.move n with
  | run u c =>
      have hu : t ≠ u := fun h => hmove c (by rw [hm, h])
      rw [hm] at hnext
      simp only [System.next] at hnext
      split at hnext
      · cases hnext
      · obtain ⟨x, -, hx⟩ := Option.map_eq_some_iff.mp hnext
        rw [← hx]
        show Function.update _ u _ t = _
        rw [Function.update_of_ne hu]
        exact hp
  | launch e =>
      rw [hm] at hnext
      simp only [System.next, Option.bind_eq_some_iff] at hnext
      obtain ⟨⟨u, p, s⟩, -, hx⟩ := hnext
      split at hx
      · rename_i hidle
        have hu : t ≠ u := by
          rintro rfl
          cases hp.symm.trans hidle
        rw [← Option.some.inj hx]
        show Function.update _ u _ t = _
        rw [Function.update_of_ne hu]
        exact hp
      · cases hx

/-- The turn with which a program goes on, if it has changed at all. -/
theorem turn_of_ne {n m : ℕ} (hnm : n ≤ m) {t : Thread} {a : S.Action}
    {k : S.Answer a → Program S Unit} (hp : (ρ.config n).program t = .act a k)
    (hne : (ρ.config m).program t ≠ .act a k) :
    ∃ j, n ≤ j ∧ j < m ∧ ∃ c r s', M.exec t a c (ρ.config j).state = some (r, s') ∧
      ρ.config (j + 1) = ⟨s', Function.update (ρ.config j).program t (k r)⟩ := by
  obtain ⟨d, rfl⟩ := Nat.exists_eq_add_of_le hnm
  clear hnm
  induction d generalizing n with
  | zero => exact absurd hp hne
  | succ d ih =>
      by_cases hturn : ∃ c, ρ.move n = .run t c
      · obtain ⟨c, hc⟩ := hturn
        have hnext := ρ.next n
        simp only [hc, System.next, hp, Option.map_eq_some_iff] at hnext
        obtain ⟨⟨r, s'⟩, hx, heq⟩ := hnext
        exact ⟨n, le_rfl, by omega, c, r, s', hx, heq.symm⟩
      · have hstays := program_of_no_turn hp fun c hc => hturn ⟨c, hc⟩
        obtain ⟨j, hj, hlt, hrest⟩ := ih hstays (by rwa [Nat.add_right_comm])
        exact ⟨j, by omega, by omega, hrest⟩

/-- The next turn of a thread whose next action stays possible. -/
theorem Fair.turn (hfair : ρ.Fair) {n : ℕ} {t : Thread} {a : S.Action}
    {k : S.Answer a → Program S Unit} (hp : (ρ.config n).program t = .act a k) (ha : M.Enables a) :
    ∃ m, n ≤ m ∧ ∃ c r s', M.exec t a c (ρ.config m).state = some (r, s') ∧
      ρ.config (m + 1) = ⟨s', Function.update (ρ.config m).program t (k r)⟩ := by
  by_cases hall : ∀ m, n ≤ m → (ρ.config m).program t = .act a k
  · -- it waits for its turn all the time, and fairness gives it one
    have henabled : ∀ m, n ≤ m → Enabled M t (ρ.config m) := by
      intro m hm
      obtain ⟨c, r, s', hx⟩ := ha t (ρ.config m).state
      refine ⟨c, ⟨s', Function.update (ρ.config m).program t (k r)⟩, ?_⟩
      simp only [System.next, hall m hm, hx, Option.map_some]
    obtain ⟨m, hm, c, hc⟩ := hfair t n henabled
    have hnext := ρ.next m
    simp only [hc, System.next, hall m hm, Option.map_eq_some_iff] at hnext
    obtain ⟨⟨r, s'⟩, hx, heq⟩ := hnext
    exact ⟨m, hm, c, r, s', hx, heq.symm⟩
  · push Not at hall
    obtain ⟨m, hm, hne⟩ := hall
    obtain ⟨j, hj, -, hturn⟩ := turn_of_ne hm hp hne
    exact ⟨j, hj, hturn⟩

/-- **Every program that cannot get stuck is completed** once it is begun. -/
theorem Fair.eventually_done (hfair : ρ.Fair) {t : Thread} {n : ℕ}
    (hp : ((ρ.config n).program t).Confined M.Enables) :
    ∃ m, n ≤ m ∧ (ρ.config m).program t = .done () := by
  generalize hprogram : (ρ.config n).program t = p at hp
  induction p generalizing n with
  | done v => exact ⟨n, le_rfl, hprogram⟩
  | act a k ih =>
      obtain ⟨m, hm, c, r, s', -, heq⟩ := hfair.turn hprogram hp.1
      have hnext : (ρ.config (m + 1)).program t = k r := by
        rw [heq]
        exact Function.update_self _ _ _
      obtain ⟨m', hm', hdone⟩ := ih r hnext (hp.2 r)
      exact ⟨m', by omega, hdone⟩

/-- A thread performs an action that satisfies `B`, with its answer. -/
def Performs (ρ : InfiniteRun M D) (t : Thread) (B : (a : S.Action) → S.Answer a → Prop) (n : ℕ) :
    Prop :=
  ∃ a c r s', M.exec t a c (ρ.config n).state = some (r, s') ∧ (ρ.config (n + 1)).state = s' ∧ B a r

section Performing

variable {possible B : (a : S.Action) → S.Answer a → Prop}

/-- What every path through its program performs, a thread has performed when it is done. -/
theorem performs_of_done
    (hpossible : ∀ n t a c r s', M.exec t a c (ρ.config n).state = some (r, s') → possible a r)
    {t : Thread} {n m : ℕ} (hnm : n ≤ m) (hp : ((ρ.config n).program t).Leads possible B)
    (hdone : (ρ.config m).program t = .done ()) : ∃ j, n ≤ j ∧ ρ.Performs t B j := by
  generalize hprogram : (ρ.config n).program t = p at hp
  induction p generalizing n with
  | done v => exact hp.elim
  | act a k ih =>
      have hne : (ρ.config m).program t ≠ .act a k := by
        rw [hdone]
        exact nofun
      obtain ⟨j, hj, hlt, c, r, s', hx, heq⟩ := turn_of_ne hnm hprogram hne
      rcases hp r (hpossible j t a c r s' hx) with hB | hrest
      · exact ⟨j, hj, a, c, r, s', hx, by rw [heq], hB⟩
      · have hnext : (ρ.config (j + 1)).program t = k r := by
          rw [heq]
          exact Function.update_self _ _ _
        obtain ⟨j', hj', hperforms⟩ := ih r hlt hnext hrest
        exact ⟨j', by omega, hperforms⟩

/-- A thread that is launched is idle before it, and has the new program after it. -/
theorem program_of_launch {n : ℕ} {e : Launch} {t : Thread} {p : Program S Unit} {s' : State}
    (hmove : ρ.move n = .launch e) (hx : M.launch e (ρ.config n).state = some (t, p, s')) :
    (ρ.config n).program t = .done () ∧ (ρ.config (n + 1)).program t = p := by
  have hnext := ρ.next n
  simp only [hmove, System.next, hx, Option.bind_some] at hnext
  split at hnext
  · rename_i hidle
    rw [← Option.some.inj hnext]
    exact ⟨hidle, Function.update_self _ _ _⟩
  · cases hnext

/-- **What every path through the programs of a thread performs, it performs again and again** if it
is launched again and again: each program is completed before the next launch. -/
theorem Relaunches.again {t : Thread} (hlaunches : ρ.Relaunches t)
    (hpossible : ∀ n t a c r s', M.exec t a c (ρ.config n).state = some (r, s') → possible a r)
    (hp : ∀ e s p s', M.launch e s = some (t, p, s') → p.Leads possible B) (n : ℕ) :
    ∃ m, n ≤ m ∧ ρ.Performs t B m := by
  obtain ⟨m, hm, e, p, s', hmove, hx⟩ := hlaunches n
  obtain ⟨m', hm', e', p', s'', hmove', hx'⟩ := hlaunches (m + 1)
  have hleads := hp e _ p s' hx
  rw [← (program_of_launch hmove hx).2] at hleads
  obtain ⟨j, hj, hperforms⟩ :=
    performs_of_done hpossible hm' hleads (program_of_launch hmove' hx').1
  exact ⟨j, by omega, hperforms⟩

end Performing

/-! ### Building runs -/

/-- If again and again no thread has anything left to do, no thread is kept waiting. -/
theorem fair_of_quiet (h : ∀ n, ∃ m, n ≤ m ∧ (ρ.config m).Quiet) : ρ.Fair := by
  intro t n henabled
  obtain ⟨m, hm, hquiet⟩ := h n
  obtain ⟨c, σ', hnext⟩ := henabled m hm
  simp only [System.next, hquiet t] at hnext
  cases hnext

/-- A run with one more step before it. -/
def cons (σ : Configuration S Thread State) (m : Move Thread Choice Launch) (htakes : D.Takes σ m)
    (hnext : M.next m σ = some (ρ.config 0)) : InfiniteRun M D where
  config
    | 0 => σ
    | n + 1 => ρ.config n
  move
    | 0 => m
    | n + 1 => ρ.move n
  takes
    | 0 => htakes
    | n + 1 => ρ.takes n
  next
    | 0 => hnext
    | n + 1 => ρ.next n

/-- A run with a finite run before it. -/
theorem exists_after {σ : Configuration S Thread State} (h : Reachable M D σ (ρ.config 0)) :
    ∃ ρ' : InfiniteRun M D, ρ'.config 0 = σ ∧
      ∃ d, ∀ n, ρ'.config (n + d) = ρ.config n ∧ ρ'.move (n + d) = ρ.move n := by
  induction h using Relation.ReflTransGen.head_induction_on with
  | refl => exact ⟨ρ, rfl, 0, fun n => ⟨rfl, rfl⟩⟩
  | head hstep _ ih =>
      obtain ⟨ρ', hstart, d, hlater⟩ := ih
      obtain ⟨m, htakes, hnext⟩ := hstep
      rw [← hstart] at hnext
      exact ⟨cons _ m htakes hnext, rfl, d + 1, fun n => hlater n⟩

section Playing

variable [∀ t a s, Decidable (D.action t a s)] [∀ e s, Decidable (D.launch e s)]

theorem play_cons {m : Move Thread Choice Launch} {ms : List (Move Thread Choice Launch)}
    {σ σ' : Configuration S Thread State} :
    M.play D (m :: ms) σ = some σ' ↔ D.Takes σ m ∧ ∃ τ, M.next m σ = some τ ∧
      M.play D ms τ = some σ' := by
  simp only [System.play]
  split
  · rename_i hm
    simp only [Option.bind_eq_some_iff, hm, true_and]
  · rename_i hm
    simp only [hm, false_and, reduceCtorEq]

section Launching

variable {P : Launch → State → Prop}
    [∀ e s, Decidable ((Discipline.launching P : Discipline S Thread State Launch).launch e s)]
  {ms : List (Move Thread Choice Launch)} {programs : Thread → Program S Unit}
  {t : Thread} {s s' : State}

theorem play_launch {e : Launch} {p : Program S Unit} (hP : P e s)
    (hl : M.launch e s = some (t, p, s')) (hidle : programs t = .done ()) :
    M.play (.launching P) (.launch e :: ms) ⟨s, programs⟩ =
      M.play (.launching P) ms ⟨s', Function.update programs t p⟩ := by
  simp only [System.play, System.next, hl, hidle, Option.bind_some]
  exact if_pos hP

theorem play_run {a : S.Action} {k : S.Answer a → Program S Unit} {c : Choice} {r : S.Answer a}
    (hx : M.exec t a c s = some (r, s')) :
    M.play (.launching P) (.run t c :: ms) ⟨s, Function.update programs t (.act a k)⟩ =
      M.play (.launching P) ms ⟨s', Function.update programs t (k r)⟩ := by
  simp only [System.play, System.next, Function.update_self, hx, Option.map_some, Option.bind_some,
    Function.update_idem]
  exact if_pos fun _ _ _ => trivial

end Launching

theorem play_append {ms ms' : List (Move Thread Choice Launch)}
    {σ σ' : Configuration S Thread State} :
    M.play D (ms ++ ms') σ = some σ' ↔ ∃ τ, M.play D ms σ = some τ ∧ M.play D ms' τ = some σ' := by
  induction ms generalizing σ with
  | nil =>
      refine ⟨fun h => ⟨σ, rfl, h⟩, fun h => ?_⟩
      obtain ⟨τ, hτ, hrest⟩ := h
      obtain rfl := Option.some.inj hτ
      exact hrest
  | cons m ms ih =>
      simp only [List.cons_append, play_cons, ih]
      constructor
      · intro h
        obtain ⟨htakes, τ, hnext, υ, hfirst, hrest⟩ := h
        exact ⟨υ, ⟨htakes, τ, hnext, hfirst⟩, hrest⟩
      · intro h
        obtain ⟨υ, ⟨htakes, τ, hnext, hfirst⟩, hrest⟩ := h
        exact ⟨htakes, τ, hnext, υ, hfirst, hrest⟩

/-- **Round after round**: what can be played over and over again is played for ever. -/
theorem exists_of_rounds {I : Configuration S Thread State → Prop}
    {ms : List (Move Thread Choice Launch)} (hne : 0 < ms.length)
    (hround : ∀ σ, I σ → ∃ σ', M.play D ms σ = some σ' ∧ I σ') {σ : Configuration S Thread State}
    (hσ : I σ) : ∃ ρ : InfiniteRun M D, ρ.config 0 = σ ∧
      (∀ k, I (ρ.config (k * ms.length))) ∧
        ∀ n, ρ.move n = ms.get ⟨n % ms.length, Nat.mod_lt n hne⟩ := by
  choose! next hplay hnext using hround
  -- where the rounds begin, and what has been played of the current one
  have hstarts : ∀ k, I (next^[k] σ) := by
    intro k
    induction k with
    | zero => exact hσ
    | succ k ih =>
        rw [Function.iterate_succ_apply']
        exact hnext _ ih
  have htaken : ∀ k j, j ≤ ms.length → ∃ τ, M.play D (ms.take j) (next^[k] σ) = some τ := by
    intro k j _
    have hall := hplay _ (hstarts k)
    rw [← List.take_append_drop j ms] at hall
    obtain ⟨τ, hτ, -⟩ := play_append.mp hall
    exact ⟨τ, hτ⟩
  have hpart : ∀ n, ∃ τ, M.play D (ms.take (n % ms.length)) (next^[n / ms.length] σ) = some τ :=
    fun n => htaken _ _ (Nat.mod_lt n hne).le
  choose config hconfig using hpart
  have hbegin : ∀ k, config (k * ms.length) = next^[k] σ := by
    intro k
    have hk := hconfig (k * ms.length)
    rw [Nat.mul_mod_left, Nat.mul_div_cancel k hne, List.take_zero] at hk
    exact (Option.some.inj hk).symm
  have hstep : ∀ n, M.play D [ms.get ⟨n % ms.length, Nat.mod_lt n hne⟩] (config n) =
      some (config (n + 1)) := by
    intro n
    have hlt := Nat.mod_lt n hne
    have hlast :
        M.play D (ms.take (n % ms.length + 1)) (next^[n / ms.length] σ) =
        some (config (n + 1)) := by
      have hn := Nat.div_add_mod n ms.length
      by_cases hend : n % ms.length + 1 = ms.length
      · have hn' : n + 1 = (n / ms.length + 1) * ms.length := by
          rw [Nat.add_mul, Nat.mul_comm]
          omega
        rw [hn', hbegin, hend, List.take_length, Function.iterate_succ_apply']
        exact hplay _ (hstarts _)
      · have hn' : n + 1 = (n % ms.length + 1) + ms.length * (n / ms.length) := by omega
        have hc := hconfig (n + 1)
        have hdiv : (n + 1) / ms.length = n / ms.length := by
          conv_lhs => rw [hn']
          rw [Nat.add_mul_div_left _ _ hne, Nat.div_eq_of_lt (by omega), Nat.zero_add]
        have hmod : (n + 1) % ms.length = n % ms.length + 1 := by
          conv_lhs => rw [hn']
          rw [Nat.add_mul_mod_self_left, Nat.mod_eq_of_lt (by omega)]
        rw [hdiv, hmod] at hc
        exact hc
    rw [List.take_succ_eq_append_getElem hlt] at hlast
    obtain ⟨τ, hτ, hone⟩ := play_append.mp hlast
    obtain rfl := Option.some.inj (hτ.symm.trans (hconfig n))
    exact hone
  refine ⟨⟨config, fun n => ms.get ⟨n % ms.length, Nat.mod_lt n hne⟩, fun n =>
    (play_cons.mp (hstep n)).1, fun n => ?_⟩,
    ?_, fun k => ?_, fun n => rfl⟩
  · obtain ⟨-, τ, hτ, hdone⟩ := play_cons.mp (hstep n)
    obtain rfl := Option.some.inj hdone
    exact hτ
  · have hzero := hbegin 0
    rw [Nat.zero_mul] at hzero
    exact hzero
  · show I (config (k * ms.length))
    rw [hbegin]
    exact hstarts k

end Playing

end InfiniteRun

end Runs

end AtomicProgram
