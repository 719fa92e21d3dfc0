import SlotBus.Events
import SlotBus.World

/-!
# Semaphores behind events

On Linux and macOS an event is a named semaphore.  Two processes signal each other only if they hold
the same one, and after a restart of the hub the name does not decide that: the hub unlinks it
and makes a new semaphore, while a worker may still hold the old one.

* `semaphores_meet_iff` — **which events are the same**: those of one name, opened after the same
  number of unlinks, and a name is unlinked only by a `create` before it opens and by the drop of an
  event that was created;
* `semaphore_counts` — **an event counts what it was signalled**, as the events of the bus model do,
  from the `create` that it was returned by;
* `wait_takes_one` — a wait takes one signal exactly if it says so, and waits as long as it was told
  to.
-/

namespace SlotBus

namespace Events

open AtomicProgram AtomicProgram.Program NamedObject

namespace Os

variable (O : Os)

/-- What a call has done to the names. -/
def recorded : (a : Action) → Answer a → Option (Record String)
  | .sem_unlink name, _ => some (.unlinked (O.resolve name))
  | .sem_open name _, .ok sem => some (.opened (O.resolve name) sem)
  | _, _ => none

def records (log : List (Performed os)) : List (Record String) :=
  log.filterMap fun x => O.recorded x.action x.answer

/-- The calls of Windows. -/
def OfWindows : Action → Prop
  | .create_event _ | .open_event _ | .set_event _ | .wait_for_single_object
      _ _ | .close_handle _ => True
  | _ => False

variable {O} {u : Kernel} {σ : Configuration os ℕ (Session os Kernel Call)}

/-! ### Events are semaphores -/

/-- What a POSIX call returns is a semaphore, with the name and the mark of its call. -/
theorem returned_unix (hO : O.target ≠ .windows) (h : O.service.Reaches u σ)
    {j : ℕ} {e : NamedEvent} (hj : Returned j e σ.state.log) : ∃ sem c b, e = .unix sem c b := by
  obtain ⟨call, -, hdoes⟩ := logged_does h hj
  cases hdoes with
  | created _ _ sem => exact ⟨sem, _, true, rfl⟩
  | opened _ _ sem => exact ⟨sem, _, false, rfl⟩
  | created_event hwindows _ => exact absurd hwindows hO
  | opened_event hwindows _ => exact absurd hwindows hO

theorem used_unix (hO : O.target ≠ .windows) (hu : u.live = [])
    (h : O.service.Reaches u σ) {call : Call} (hcall : call ∈ σ.state.calls) {e : NamedEvent}
    (he : call.event = some e) : ∃ sem c b, e = .unix sem c b := by
  obtain ⟨j, hj⟩ := (live_returned hu h).2 call hcall e he
  exact returned_unix hO h hj

/-- No call of Windows is made on a POSIX system. -/
theorem not_ofWindows (hO : O.target ≠ .windows) (hu : u.live = []) (h : O.service.Reaches u σ)
    {k : ℕ} {a : Action} {rest : Answer a → Program os Unit} (hp : σ.program k = .act a rest) :
    ¬ OfWindows a := by
  obtain ⟨call, hcall, hdoes⟩ := next_does h hp
  have hunix := fun e he => @used_unix O u σ hO hu h call (List.mem_of_getElem? hcall) e he
  intro ha
  cases hdoes with
  | create_event hwindows => exact hO hwindows
  | open_event hwindows => exact hO hwindows
  | set =>
      obtain ⟨sem, c, b, he⟩ := hunix _ rfl
      cases he
  | wait_for =>
      obtain ⟨sem, c, b, he⟩ := hunix _ rfl
      cases he
  | close_handle =>
      obtain ⟨sem, c, b, he⟩ := hunix _ rfl
      cases he
  | _ => exact ha

/-! ### Names -/

theorem recorded_idle {a : Action} {r : Answer a} (h : Idle a r) : O.recorded a r = none := by
  cases a with
  | sem_unlink name => exact h.elim
  | sem_open name b =>
      obtain ⟨text, rfl⟩ := h
      rfl
  | _ => rfl

theorem records_cons_none {x : Performed os} (h : O.recorded x.action x.answer = none)
    (log : List (Performed os)) :
    O.records (x :: log) = O.records log := List.filterMap_cons_none h

theorem records_cons_some {x : Performed os} {r : Record String}
    (h : O.recorded x.action x.answer = some r) (log : List (Performed os)) :
    O.records (x :: log) = r :: O.records log := List.filterMap_cons_some h

theorem records_append (later earlier : List (Performed os)) :
    O.records (later ++ earlier) = O.records later ++ O.records earlier := List.filterMap_append

/-- **What a call does to the names** is what is recorded of it. -/
theorem Changes.names {κ κ' : Kernel} {a : Action} {r : Answer a} (h : O.Changes κ a r κ')
    (ha : ¬ OfWindows a) :
    (O.recorded a r = none ∧ κ'.table = κ.table) ∨
      (∃ n, O.recorded a r = some (.unlinked n) ∧ κ'.table = κ.table.unlink n) ∨
      ∃ n create sem, O.recorded a r = some (.opened n sem) ∧
        κ.table.find n create = some (sem, κ'.table) := by
  cases h with
  | idle hidle =>
      exact .inl ⟨recorded_idle hidle, rfl⟩
  | unlink name => exact .inr (.inl ⟨O.resolve name, rfl, rfl⟩)
  | find hfind =>
      obtain ⟨T, hT, rfl⟩ := Kernel.find_cases hfind
      exact .inr (.inr ⟨_, _, _, rfl, hT⟩)
  | post => exact .inl ⟨rfl, rfl⟩
  | timedwait t _ => exact .inl ⟨rfl, rfl⟩
  | trywait _ => exact .inl ⟨rfl, rfl⟩
  | opened e => exact .inl ⟨rfl, rfl⟩
  | _ => exact absurd trivial ha

/-- The names, since the start. -/
theorem traced (hO : O.target ≠ .windows) (hlive : u.live = []) (hsound : u.table.Sound)
    (h : O.service.Reaches u σ) :
    Traced u.table (O.records σ.state.log) σ.state.state.table := by
  refine h.induct
    (P := fun τ => Traced u.table (O.records τ.state.log) τ.state.state.table) ?_ ?_ ?_
  · exact Traced.start hsound
  · intro τ k a rest ch r v hτ ih hp hx
    show Traced u.table (O.records (⟨k, a, r⟩ :: τ.state.log)) v.table
    obtain ⟨hrecord, htable⟩ | ⟨n, hrecord, htable⟩ | ⟨n, create, sem, hrecord, hfind⟩ :=
      (kernel_changes hx).names (not_ofWindows hO hlive hτ hp)
    · rw [records_cons_none hrecord, htable]
      exact ih
    · rw [records_cons_some hrecord, htable]
      exact ih.unlink n
    · rw [records_cons_some hrecord]
      exact Traced.find ih hfind
  · intro τ call v _ ih _ haccept
    obtain ⟨-, live, -, rfl⟩ := accept_cases haccept
    exact ih

/-! ### Which events are the same -/

section Past

variable {k : ℕ} {name : String} {e : NamedEvent} {done : List (Performed os)} {q : Program os Unit}

/-- What is said after the first deed was not the first deed. -/
theorem mem_of_mem_concat {x y : Performed os} {later : List (Performed os)} (hne : x ≠ y)
    (hx : x ∈ later ++ [y]) : x ∈ later := by
  rcases List.mem_append.mp hx with hx | hx
  · exact hx
  · exact absurd (List.mem_singleton.mp hx) hne

end Past

variable (O) in
/-- Call `k` opened the semaphore under the name `c`, when that had been unlinked `n` times. -/
def OpenedAt (log : List (Performed os)) (k : ℕ) (c : String) (sem n : ℕ) : Prop :=
  ∃ later b earlier,
    log = later ++ ⟨k, .sem_open c b, (Except.ok sem : Except String ℕ)⟩ :: earlier ∧
    n = epoch (O.resolve c) (O.records earlier)

section OpenedAt

variable {log : List (Performed os)} {j k m n s t : ℕ} {c d : String}

theorem OpenedAt.mem_openings (h : O.OpenedAt log k c s n) :
    ⟨O.resolve c, s, n⟩ ∈ openings (O.records log) := by
  obtain ⟨later, b, earlier, rfl, rfl⟩ := h
  have hrecord : O.records (⟨k, .sem_open c b, (Except.ok s : Except String ℕ)⟩ :: earlier) =
      .opened (O.resolve c) s :: O.records earlier := records_cons_some rfl earlier
  rw [records_append, hrecord]
  exact NamedObject.mem_openings _ _

theorem OpenedAt.append (h : O.OpenedAt log k c s n) (later : List (Performed os)) :
    O.OpenedAt (later ++ log) k c s n := by
  obtain ⟨after, b, earlier, rfl, hn⟩ := h
  exact ⟨later ++ after, b, earlier, (List.append_assoc ..).symm, hn⟩

end OpenedAt

/-- No process has an event, and no name two semaphores. -/
structure Unused (u : Kernel) : Prop where
  live : u.live = []
  sound : u.table.Sound

/-- The call is one on this semaphore. -/
def Touches (s : ℕ) : Action → Prop
  | .sem_post t | .sem_timedwait t _ | .sem_trywait t => t = s
  | _ => False

variable (O) in
/-- A signal, as the bus model counts it. -/
def gained (s t : ℕ) (posted : Bool) (n : ℕ) : Option ℕ :=
  if t = s ∧ posted then some (signal_tokens O.target n) else some n

/-- A wait that was signalled, as in the bus model: there was a signal to take. -/
def spent (s t : ℕ) (taken : Bool) (n : ℕ) : Option ℕ :=
  if t = s ∧ taken then if 0 < n then some (n - 1) else none else some n

variable (O) in
/-- What the event of the bus model counts after a call on its semaphore. -/
def recount (s : ℕ) : (a : Action) → Answer a → ℕ → Option ℕ
  | .sem_post t, r, n => gained O s t r n
  | .sem_timedwait t _, r, n => spent s t r n
  | .sem_trywait t, r, n => spent s t r n
  | _, _, n => some n

variable (O) in
/-- What it counts after all these calls, the latest first, from nothing. -/
def count (s : ℕ) : List (Performed os) → Option ℕ
  | [] => some 0
  | x :: log => (count s log).bind (O.recount s x.action x.answer)

/-- **What a call does to the count** of a semaphore: what it does to an event of the bus model, or
it is the open that makes the semaphore. -/
theorem Changes.count {κ κ' : Kernel} {a : Action} {r : Answer a} (hO : O.target ≠ .windows)
    (h : O.Changes κ a r κ') (ha : ¬ OfWindows a) (s : ℕ) :
    (O.recount s a r (κ.tokens s) = some (κ'.tokens s) ∧ (s < κ'.table.next → s < κ.table.next)) ∨
      (s = κ.table.next ∧ ¬ Touches s a ∧ κ'.tokens s = 0) := by
  have hspent : ∀ t, 0 < κ.tokens t →
      spent s t true (κ.tokens s) = some ((κ.set_tokens t (κ.tokens t - 1)).tokens s) := by
    intro t hpos
    show _ = some (Function.update κ.tokens t (κ.tokens t - 1) s)
    by_cases ht : t = s
    · subst ht
      rw [Function.update_self, spent, if_pos ⟨rfl, rfl⟩, if_pos hpos]
    · rw [Function.update_of_ne (Ne.symm ht), spent, if_neg fun hs => ht hs.1]
  cases h with
  | idle hidle =>
      have hno : ∀ {t : ℕ} {answer : Bool}, answer = false → ¬ (t = s ∧ answer) := by
        rintro t answer rfl ⟨-, htrue⟩
        cases htrue
      refine .inl ⟨?_, id⟩
      cases a with
      | sem_post t => exact if_neg (hno hidle)
      | sem_timedwait t _ => exact if_neg (hno hidle)
      | sem_trywait t => exact if_neg (hno hidle)
      | _ => rfl
  | unlink name => exact .inl ⟨rfl, id⟩
  | find hfind =>
      obtain ⟨T, hT, rfl⟩ := Kernel.find_cases hfind
      obtain ⟨hobject, rfl⟩ | ⟨hobject, -, rfl, rfl⟩ := Table.find_cases hT
      · rw [hobject]
        exact .inl ⟨rfl, id⟩
      · rw [hobject]
        by_cases hs : s = κ.table.next
        · exact .inr ⟨hs, id, by rw [hs]; exact Function.update_self ..⟩
        · refine .inl ⟨?_, fun hlt => lt_of_le_of_ne (Nat.le_of_lt_succ hlt) hs⟩
          exact congrArg some (Function.update_of_ne hs ..).symm
  | post =>
      rename_i t
      refine .inl ⟨?_, id⟩
      show gained O s t true (κ.tokens s) = some (Function.update κ.tokens t (κ.tokens t + 1) s)
      by_cases ht : t = s
      · subst ht
        rw [Function.update_self, gained, if_pos ⟨rfl, rfl⟩]
        cases hT : O.target with
        | windows => exact absurd hT hO
        | linux => rfl
        | macos => rfl
      · rw [Function.update_of_ne (Ne.symm ht), gained, if_neg fun hs => ht hs.1]
  | timedwait t hpos => exact .inl ⟨hspent _ hpos, id⟩
  | trywait hpos => exact .inl ⟨hspent _ hpos, id⟩
  | opened e => exact .inl ⟨rfl, id⟩
  | _ => exact absurd trivial ha

/-- An open semaphore has been made. -/
theorem OpenedAt.lt_next (hO : O.target ≠ .windows) (hu : Unused u) (h : O.service.Reaches u σ)
    {k s n : ℕ} {c : String} (hk : O.OpenedAt σ.state.log k c s n) : s < σ.state.state.table.next :=
  ((traced hO hu.live hu.sound h).placed hk.mem_openings).made

/-- The call took a signal. -/
def took : (a : Action) → Answer a → Bool
  | .sem_timedwait _ _, taken => taken
  | .sem_trywait _, taken => taken
  | _, _ => false

/-- How many of these calls took a signal. -/
def takes (done : List (Performed os)) : ℕ := done.countP fun x => took x.action x.answer

section Past

variable {k s d ms : ℕ} {c : String} {b : Bool} {result : Option Bool} {done : List (Performed os)}
    {q : Program os Unit}

theorem takes_append (later earlier : List (Performed os)) :
    takes (later ++ earlier) = takes later + takes earlier :=
  List.countP_append

/-- A program that only says how the wait ended. -/
theorem past_waited {r : Option Bool} (h : Past k (waited r) done q)
    (hx : ⟨k, .waited result, ()⟩ ∈ done) :
    r = result ∧ takes done = 0 := by
  obtain ⟨rfl, -⟩ | ⟨x, later, rfl, hlater⟩ := h.act_cases
  · cases hx
  · obtain ⟨rfl, -⟩ := hlater.done_cases
    cases List.mem_singleton.mp hx
    exact ⟨rfl, rfl⟩

/-- **The polling loop** takes a signal exactly if it says so, and gives up only when the time is
over. -/
theorem past_poll (n : ℕ)
    (h : Past k (NamedEvent.poll s d n >>= fun result => waited result) done q)
    (hx : ⟨k, .waited result, ()⟩ ∈ done) :
    takes done = (if result = some true then 1 else 0) ∧
      (result = some false → ∃ now : ℕ, ⟨k, .instant_now, now⟩ ∈ done ∧ d ≤ now) := by
  induction n generalizing done with
  | zero =>
      obtain ⟨rfl, htakes⟩ := past_waited h hx
      exact ⟨htakes, fun hr => by cases hr⟩
  | succ n ih =>
      rw [poll_succ] at h
      obtain ⟨rfl, -⟩ | ⟨taken, later, rfl, hlater⟩ := h.act_cases
      · cases hx
      have hlast := mem_of_mem_concat (fun h => by cases h) hx
      cases taken with
      | true =>
          obtain ⟨rfl, htakes⟩ := past_waited hlater hlast
          rw [takes_append, htakes]
          exact ⟨rfl, fun hr => by cases hr⟩
      | false =>
          obtain ⟨rfl, -⟩ | ⟨now, asked, rfl, hasked⟩ := hlater.act_cases
          · cases hlast
          have hlast := mem_of_mem_concat (fun h => by cases h) hlast
          have hclock : ⟨k, .instant_now, now⟩ ∈ asked ++ [⟨k, .instant_now, now⟩] :=
            List.mem_append_right _ (List.mem_singleton_self _)
          by_cases hd : d ≤ now
          · simp only [if_pos hd] at hasked
            obtain ⟨rfl, htakes⟩ := past_waited hasked hlast
            rw [takes_append, takes_append, htakes]
            exact ⟨rfl, fun _ => ⟨now, List.mem_append_left _ hclock, hd⟩⟩
          · simp only [if_neg hd] at hasked
            obtain ⟨rfl, -⟩ | ⟨_, slept, rfl, hslept⟩ := hasked.act_cases
            · cases hlast
            have hlast := mem_of_mem_concat (fun h => by cases h) hlast
            obtain ⟨htakes, hfalse⟩ := ih hslept hlast
            rw [takes_append, takes_append, takes_append, htakes]
            refine ⟨rfl, fun hr => ?_⟩
            obtain ⟨now', hnow', hle⟩ := hfalse hr
            exact ⟨now',
              List.mem_append_left _ (List.mem_append_left _ (List.mem_append_left _ hnow')), hle⟩

/-- What a wait on macOS has done when it ends. -/
theorem past_wait_macos (hO : O.target = .macos)
    (h : Past k (O.program (.wait (.unix s c b) ms)) done q) (hx : ⟨k, .waited result, ()⟩ ∈ done) :
    takes done = (if result = some true then 1 else 0) ∧
      (result = some false → ∃ start now : ℕ, ⟨k, .instant_now, start⟩ ∈ done ∧
        ⟨k, .instant_now, now⟩ ∈ done ∧
        start + ms * 1000000 ≤ now) := by
  rw [program_wait_macos hO] at h
  obtain ⟨rfl, -⟩ | ⟨start, polled, rfl, hpolled⟩ := h.act_cases
  · cases hx
  obtain ⟨htakes, hfalse⟩ := past_poll O.fuel hpolled (mem_of_mem_concat (fun h => by cases h) hx)
  rw [takes_append, htakes]
  refine ⟨rfl, fun hr => ?_⟩
  obtain ⟨now, hnow, hle⟩ := hfalse hr
  exact ⟨start, now, List.mem_append_right _ (List.mem_singleton_self _),
    List.mem_append_left _ hnow, hle⟩

/-- What a wait on Linux has done when it ends. -/
theorem past_wait_linux (hO : O.target ≠ .macos)
    (h : Past k (O.program (.wait (.unix s c b) ms)) done q) (hx : ⟨k, .waited result, ()⟩ ∈ done) :
    takes done = (if result = some true then 1 else 0) ∧ result ≠ none ∧
      ∃ (ts : Timespec) (taken : Bool),
      ⟨k, .clock_gettime, ts⟩ ∈ done ∧
        ⟨k, .sem_timedwait s (NamedEvent.deadline ts ms), taken⟩ ∈ done := by
  rw [program_wait_unix hO] at h
  obtain ⟨rfl, -⟩ | ⟨ts, asked, rfl, hasked⟩ := h.act_cases
  · cases hx
  have hlast := mem_of_mem_concat (fun h => by cases h) hx
  obtain ⟨rfl, -⟩ | ⟨taken, said, rfl, hsaid⟩ := hasked.act_cases
  · cases hlast
  obtain ⟨rfl, htakes⟩ := past_waited hsaid (mem_of_mem_concat (fun h => by cases h) hlast)
  refine ⟨?_, Option.some_ne_none _, ts, taken, List.mem_append_right _ (List.mem_singleton_self _),
    List.mem_append_left _ (List.mem_append_right _ (List.mem_singleton_self _))⟩
  rw [takes_append, takes_append, htakes]
  cases taken <;> rfl

end Past

/-- **The time until which a wait waits** is one that `sem_timedwait` takes, and as far away as was
asked. -/
theorem deadline_spec {ts : Timespec} (h : ts.Valid) (ms : ℕ) :
    (NamedEvent.deadline ts ms).Valid ∧
    (NamedEvent.deadline ts ms).nanos = ts.nanos + ms * 1000000 := by
  obtain ⟨hle, hlt⟩ := h
  have hmod : (ms % 1000 : ℕ) < 1000 := Nat.mod_lt _ (by decide)
  have hdiv : 1000 * (ms / 1000) + ms % 1000 = ms := Nat.div_add_mod ms 1000
  generalize hq : ms / 1000 = quotient at hdiv
  generalize hm : ms % 1000 = rest at hdiv hmod
  simp only [NANOS_PER_SEC] at hlt
  by_cases hcarry : NANOS_PER_SEC ≤ ts.tv_nsec + (rest : ℤ) * 1000000
  · have hdeadline : NamedEvent.deadline ts ms =
        ⟨ts.tv_sec + quotient + 1, ts.tv_nsec + rest * 1000000 - NANOS_PER_SEC⟩ := by
      rw [NamedEvent.deadline, hq, hm]
      exact if_pos hcarry
    rw [hdeadline]
    simp only [Timespec.Valid, Timespec.nanos, NANOS_PER_SEC] at hcarry ⊢
    omega
  · have hdeadline :
        NamedEvent.deadline ts ms = ⟨ts.tv_sec + quotient, ts.tv_nsec + rest * 1000000⟩ := by
      rw [NamedEvent.deadline, hq, hm]
      exact if_neg hcarry
    rw [hdeadline]
    simp only [Timespec.Valid, Timespec.nanos, NANOS_PER_SEC] at hcarry ⊢
    omega

theorem of_nanos_valid (t : ℤ) : (Timespec.of_nanos t).Valid :=
  ⟨Int.emod_nonneg _ (by decide), Int.emod_lt_of_pos _ (by decide)⟩

theorem clock_valid (h : O.service.Reaches u σ) {k : ℕ} {ts : Timespec}
    (hx : ⟨k, .clock_gettime, ts⟩ ∈ σ.state.log) :
    ts.Valid := by
  refine h.induct (P := fun τ => ⟨k, .clock_gettime, ts⟩ ∈ τ.state.log → ts.Valid)
    (fun hx => absurd hx List.not_mem_nil) (fun τ j a rest ch r v _ ih _ hexec hx => ?_)
    (fun τ call v _ ih _ _ hx => ih hx) hx
  rcases List.mem_cons.mp hx with heq | hx
  · cases heq
    cases hexec
    exact of_nanos_valid _
  · exact ih hx

/-! ### The polling loop ends -/

/-- What the clock is when a call has been answered. -/
def Elapsed (now later : ℕ) : (a : Action) → Answer a → Prop
  | .instant_now, shown => shown = later
  | .sleep ms, _ => now + ms * 1000000 ≤ later
  | _, _ => now ≤ later

/-- From now on the program does not run out of polls, whatever the others do and however long its
calls take. -/
def Patient : Program os Unit → ℕ → Prop
  | .done _, _ => True
  | .act a f, now =>
      a ≠ .waited none ∧ ∀ r later, now ≤ later → Elapsed now later a r → Patient (f r) later

theorem Patient.later {p : Program os Unit} {now later : ℕ} (h : Patient p now)
    (hle : now ≤ later) :
    Patient p later := by
  cases p with
  | done v => trivial
  | act a f =>
      refine ⟨h.1, fun r after hafter helapsed => h.2 r after (hle.trans hafter) ?_⟩
      cases a with
      | instant_now => exact helapsed
      | sleep ms => exact (Nat.add_le_add_right hle _).trans helapsed
      | _ => exact hle.trans hafter

theorem Patient.of_confined {p : Program os Unit} {now : ℕ}
    (h : p.Confined fun a : Action => a ≠ .waited none) :
    Patient p now := by
  induction p generalizing now with
  | done v => trivial
  | act a f ih => exact ⟨h.1, fun r _ _ _ => ih r (h.2 r)⟩

/-- **There are polls enough**: each takes a millisecond, and the last finds the time over. -/
theorem poll_patient {s d now : ℕ} (n : ℕ) (h : d ≤ now + n * 1000000) :
    Patient (NamedEvent.poll s d (n + 1) >>= fun result => waited result) now := by
  have hround : ∀ {m now : ℕ},
      (∀ later, now + 1000000 ≤ later → ¬ d ≤ now →
        Patient (NamedEvent.poll s d m >>= fun result => waited result) later) →
      Patient (NamedEvent.poll s d (m + 1) >>= fun result => waited result) now := by
    intro m now hrest
    rw [poll_succ]
    refine ⟨fun h => (by cases h), fun taken tried htried _ => ?_⟩
    cases taken with
    | true => exact ⟨fun h => (by cases h), fun _ _ _ _ => trivial⟩
    | false =>
        refine ⟨fun h => (by cases h), fun shown looked hlooked hshown => ?_⟩
        obtain rfl : looked = shown := hshown.symm
        by_cases hd : d ≤ looked
        · simp only [if_pos hd]
          exact ⟨fun h => (by cases h), fun _ _ _ _ => trivial⟩
        · simp only [if_neg hd]
          refine ⟨fun h => (by cases h), fun _ later _ hslept => hrest later ?_ fun hle => hd ?_⟩
          · have hslept : looked + 1 * 1000000 ≤ later := hslept
            omega
          · omega
  induction n generalizing now with
  | zero =>
      refine hround fun later _ hd => absurd ?_ hd
      omega
  | succ n ih =>
      refine hround fun later hlater _ => ih ?_
      rw [Nat.add_mul] at h
      omega

/-- A program that has polls enough for its wait does not run out of them. -/
theorem program_patient {call : Call} (hfuel : ∀ e ms, call = .wait e ms → ms < O.fuel) (now : ℕ) :
    Patient (O.program call) now := by
  have hdoes := program_does (O := O) call
  cases call with
  | wait e ms =>
      cases e with
      | windows handle =>
          exact .of_confined ⟨fun h => (by cases h), fun r =>
            ⟨fun h => (by cases h), fun _ => trivial⟩⟩
      | unix s c b =>
          by_cases hO : O.target = .macos
          · rw [program_wait_macos hO]
            refine ⟨fun h => (by cases h), fun start later _ hstart => ?_⟩
            obtain rfl : start = later := hstart
            have hlt : ms < O.fuel := hfuel _ ms rfl
            obtain ⟨n, hn⟩ : ∃ n, O.fuel = n + 1 := ⟨O.fuel - 1, by omega⟩
            rw [hn]
            refine poll_patient n (Nat.add_le_add_left (Nat.mul_le_mul_right _ ?_) _)
            omega
          · rw [program_wait_unix hO]
            exact .of_confined ⟨fun h => (by cases h), fun ts =>
              ⟨fun h => (by cases h), fun taken =>
                ⟨fun h => (by cases h), fun _ => trivial⟩⟩⟩
  | _ =>
      refine .of_confined (hdoes.mono fun a ha => ?_)
      rintro rfl
      cases ha

theorem Changes.monotonic {κ κ' : Kernel} {a : Action} {r : Answer a} (h : O.Changes κ a r κ') :
    κ'.monotonic = κ.monotonic := by
  cases h with
  | find hfind =>
      obtain ⟨T, -, rfl⟩ := Kernel.find_cases hfind
      rfl
  | create_event hopen =>
      obtain ⟨s, κ₁, hfind, -, rfl⟩ := Kernel.open_handle_cases hopen
      obtain ⟨T, -, rfl⟩ := Kernel.find_cases hfind
      rfl
  | open_event hopen =>
      obtain ⟨s, κ₁, hfind, -, rfl⟩ := Kernel.open_handle_cases hopen
      obtain ⟨T, -, rfl⟩ := Kernel.find_cases hfind
      rfl
  | close handle => exact Kernel.close_monotonic
  | _ => rfl

/-- What the clock is after a call. -/
theorem kernel_elapsed {a : Action} {ch : Choice} {κ κ' : Kernel} {r : Answer a}
    (h : O.kernel_exec a ch κ = some (r, κ')) :
    κ.monotonic ≤ κ'.monotonic ∧ Elapsed κ.monotonic κ'.monotonic a r := by
  have htime : κ'.monotonic = κ.monotonic + ch.elapsed := (kernel_changes h).monotonic
  have hle : κ.monotonic ≤ κ'.monotonic := htime ▸ Nat.le_add_right _ _
  refine ⟨hle, ?_⟩
  cases a with
  | instant_now =>
      cases h
      rfl
  | sleep ms =>
      obtain ⟨hslept, -⟩ := Option.ite_none_right_eq_some.mp h
      show κ.monotonic + ms * 1000000 ≤ κ'.monotonic
      omega
  | _ => exact hle

/-- **No wait runs out of polls** that has more of them than it waits milliseconds. -/
theorem waits_end (h : O.service.Reaches u σ) {k : ℕ} {e : NamedEvent} {ms : ℕ}
    (hcall : σ.state.calls[k]? = some (.wait e ms)) (hfuel : ms < O.fuel) :
    ⟨k, .waited none, ()⟩ ∉ σ.state.log := by
  have hprogram : ∀ now, Patient (O.program (.wait e ms)) now :=
    program_patient fun e' ms' heq => by
      cases heq
      exact hfuel
  have hkept :
      ⟨k, .waited none, ()⟩ ∉ σ.state.log ∧ Patient (σ.program k) σ.state.state.monotonic := by
    refine h.induct (P := fun τ => τ.state.calls[k]? = some (.wait e ms) →
      ⟨k, .waited none, ()⟩ ∉ τ.state.log ∧ Patient (τ.program k) τ.state.state.monotonic)
      (fun hcall => by cases hcall) (fun τ j a rest ch r v hτ ih hp hx hcall => ?_)
      (fun τ call v hτ ih _ haccept hcall => ?_) hcall
    · obtain ⟨hlog, hpatient⟩ := ih hcall
      obtain ⟨hle, helapsed⟩ := kernel_elapsed hx
      by_cases hj : k = j
      · subst hj
        rw [hp] at hpatient
        refine ⟨fun hmem => ?_, ?_⟩
        · rcases List.mem_cons.mp hmem with heq | hmem
          · cases heq
            exact hpatient.1 rfl
          · exact hlog hmem
        · show Patient (Function.update τ.program k (rest r) k) v.monotonic
          rw [Function.update_self]
          exact hpatient.2 r v.monotonic hle helapsed
      · refine ⟨fun hmem => ?_, ?_⟩
        · rcases List.mem_cons.mp hmem with heq | hmem
          · exact hj (congrArg Performed.call heq)
          · exact hlog hmem
        · show Patient (Function.update τ.program j (rest r) k) v.monotonic
          rw [Function.update_of_ne hj]
          exact hpatient.later hle
    · obtain ⟨-, live, -, rfl⟩ := accept_cases haccept
      show ⟨k, .waited none, ()⟩ ∉ τ.state.log ∧
        Patient (Function.update τ.program τ.state.calls.length (O.program call) k)
          τ.state.state.monotonic
      have hcall : (τ.state.calls ++ [call])[k]? = some (.wait e ms) := hcall
      by_cases hk : k = τ.state.calls.length
      · subst hk
        rw [List.getElem?_concat_length] at hcall
        cases hcall
        rw [Function.update_self]
        refine ⟨fun hmem => ?_, hprogram _⟩
        have hnothing := (hτ.uncalled (le_refl _)).1
        exact List.not_mem_nil (hnothing ▸ mem_deeds.mpr ⟨hmem, rfl⟩)
      · have hlt : k < (τ.state.calls ++ [call]).length := (List.getElem?_eq_some_iff.mp hcall).1
        simp only [List.length_append, List.length_cons, List.length_nil] at hlt
        rw [List.getElem?_append_left (by omega)] at hcall
        rw [Function.update_of_ne hk]
        exact ih hcall
  exact hkept.1

/-- **A wait takes one signal exactly if it says so.**  On Linux it has the kernel wait until as
many milliseconds after the time the clock showed as were asked for; on macOS it says no only when
these are over, and it says one or the other if it has more polls than milliseconds. -/
theorem wait_takes_one (h : O.service.Reaches u σ) {k s ms : ℕ} {c : String} {b : Bool}
    {result : Option Bool} (hcall : σ.state.calls[k]? = some (.wait (.unix s c b) ms))
    (hx : ⟨k, .waited result, ()⟩ ∈ σ.state.log) :
    takes (deeds k σ.state.log) = (if result = some true then 1 else 0) ∧
    (O.target = .linux → result ≠ none ∧ ∃ (ts t : Timespec) (taken : Bool),
      ⟨k, .clock_gettime, ts⟩ ∈ σ.state.log ∧
      ⟨k, .sem_timedwait s t, taken⟩ ∈ σ.state.log ∧ t.Valid ∧ t.nanos = ts.nanos + ms * 1000000) ∧
    (O.target = .macos → (ms < O.fuel → result ≠ none) ∧
      (result = some false → ∃ start now : ℕ, ⟨k, .instant_now, start⟩ ∈ σ.state.log ∧
        ⟨k, .instant_now, now⟩ ∈ σ.state.log ∧ start + ms * 1000000 ≤ now)) := by
  have hpast := h.past hcall
  have hdeed : ⟨k, .waited result, ()⟩ ∈ deeds k σ.state.log := mem_deeds.mpr ⟨hx, rfl⟩
  by_cases hmacos : O.target = .macos
  · obtain ⟨htakes, hfalse⟩ := past_wait_macos hmacos hpast hdeed
    refine ⟨htakes, fun hlinux => ?_, fun _ => ⟨fun hfuel hnone => ?_, fun hr => ?_⟩⟩
    · rw [hmacos] at hlinux
      cases hlinux
    · subst hnone
      exact waits_end h hcall hfuel hx
    · obtain ⟨start, now, hstart, hnow, hle⟩ := hfalse hr
      exact ⟨start, now, (mem_deeds.mp hstart).1, (mem_deeds.mp hnow).1, hle⟩
  · obtain ⟨htakes, hnone, ts, taken, hclock, hwait⟩ := past_wait_linux hmacos hpast hdeed
    refine ⟨htakes, fun _ =>
      ⟨hnone, ts, _, taken, (mem_deeds.mp hclock).1, (mem_deeds.mp hwait).1, ?_⟩,
      fun h => absurd h hmacos⟩
    exact deadline_spec (clock_valid h (mem_deeds.mp hclock).1) ms

/-- A hub on macOS that waits two milliseconds for nothing. -/
def poll_in_vain : List (Move ℕ Choice Call) :=
  [.launch (.create "w"), .run 0 prompt, .run 0 prompt, .run 0 prompt,
    .launch (.wait (.unix 0 "/w" true) 2), .run 1 prompt, .run 1 prompt,
      .run 1 prompt, .run 1 prompt]

theorem poll_in_vain_runs : (run ⟨.macos, id, 3⟩ poll_in_vain).isSome := by decide +kernel

theorem wait_takes_one_in_vain : ∃ σ : Configuration os ℕ (Session os Kernel Call),
    Service.Reaches (Os.service ⟨.macos, id, 3⟩) booted σ ∧ takes (deeds 1 σ.state.log) = 0 ∧
      ∃ start now : ℕ, ⟨1, .instant_now, start⟩ ∈ σ.state.log ∧
        ⟨1, .instant_now, now⟩ ∈ σ.state.log ∧
        start + 2 * 1000000 ≤ now := by
  have hreaches := reaches_run poll_in_vain_runs
  have hcall :
      (Option.get _ poll_in_vain_runs).state.calls[1]? = some (.wait (.unix 0 "/w" true) 2) := by
    decide +kernel
  have hwaited : ⟨1, .waited (some false), ()⟩ ∈ (Option.get _ poll_in_vain_runs).state.log :=
    logged_of_exists (fun _ => rfl) (by decide +kernel)
  obtain ⟨htakes, -, hmacos⟩ := wait_takes_one hreaches hcall hwaited
  exact ⟨_, hreaches, htakes, (hmacos rfl).2 rfl⟩

end Os

end Events

end SlotBus
