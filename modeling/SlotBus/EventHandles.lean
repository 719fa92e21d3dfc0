import SlotBus.Events

/-!
# Handles of events

On Windows an event is there as long as somebody has a handle to it, and so is its name: a hub
that is started again while a worker has its event gets the same event, with what it was signalled.

* `handles_meet_iff` — **which events are the same**: those of one name, among all that any process
  has.
-/

namespace SlotBus

namespace Events

open AtomicProgram AtomicProgram.Program NamedObject

namespace Os

variable {O : Os} {u : Kernel} {σ : Configuration os ℕ (Session os Kernel Call)}

/-- The calls of POSIX that change something. -/
def OfPosix : Action → Prop
  | .sem_unlink _ | .sem_open _ _ | .sem_post _ | .sem_timedwait _ _ | .sem_trywait _ => True
  | _ => False

/-! ### Events are handles -/

theorem returned_windows (hO : O.target = .windows) (h : O.service.Reaches u σ)
    {j : ℕ} {e : NamedEvent} (hj : Returned j e σ.state.log) : ∃ handle, e = .windows handle := by
  obtain ⟨call, -, hdoes⟩ := logged_does h hj
  cases hdoes with
  | created hposix _ _ => exact absurd hO hposix
  | opened hposix _ _ => exact absurd hO hposix
  | created_event _ handle => exact ⟨handle, rfl⟩
  | opened_event _ handle => exact ⟨handle, rfl⟩

/-- No call of POSIX is made on Windows. -/
theorem not_ofPosix (hO : O.target = .windows) (hu : u.live = []) (h : O.service.Reaches u σ)
    {k : ℕ} {a : Action} {rest : Answer a → Program os Unit} (hp : σ.program k = .act a rest) :
    ¬ OfPosix a := by
  obtain ⟨call, hcall, hdoes⟩ := next_does h hp
  have hwindows : ∀ sem c b, call.event ≠ some (.unix sem c b) := by
    intro sem c b he
    obtain ⟨j, hj⟩ := (live_returned hu h).2 call (List.mem_of_getElem? hcall) _ he
    obtain ⟨handle, heq⟩ := returned_windows hO h hj
    cases heq
  intro ha
  cases hdoes with
  | unlink hposix _ => exact hposix hO
  | create hposix _ => exact hposix hO
  | open_ hposix _ => exact hposix hO
  | post => exact hwindows _ _ _ rfl
  | timedwait t => exact hwindows _ _ _ rfl
  | trywait => exact hwindows _ _ _ rfl
  | take_away => exact hwindows _ _ _ rfl
  | _ => exact ha

/-- The handle that a call was given, with the name that it gave. -/
def given : (a : Action) → Answer a → Option (List Char × ℕ)
  | .create_event name, some handle => some (name, handle)
  | .open_event name, some handle => some (name, handle)
  | _, _ => none

theorem given_idle {a : Action} {r : Answer a} (h : Idle a r) : given a r = none := by
  cases a with
  | create_event name =>
      cases (show r = none from h)
      rfl
  | open_event name =>
      cases (show r = none from h)
      rfl
  | _ => rfl

/-- **What a call does to the handles**: nothing, or it opens one, or it closes one. -/
theorem Changes.handles {κ κ' : Kernel} {a : Action} {r : Answer a} (h : O.Changes κ a r κ')
    (ha : ¬ OfPosix a) :
    (given a r = none ∧ κ'.handles = κ.handles ∧ κ'.next_handle = κ.next_handle ∧
      κ'.table = κ.table) ∨
      (∃ name create s, given a r = some (name, κ.next_handle) ∧
        κ.table.find (O.read_wide name) create = some (s, κ'.table) ∧
        κ'.handles = ⟨κ.next_handle, O.read_wide name, s⟩ :: κ.handles ∧
          κ'.next_handle = κ.next_handle + 1) ∨
      ∃ handle, a = .close_handle handle ∧ κ' = κ.close handle := by
  cases h with
  | idle hidle => exact .inl ⟨given_idle hidle, rfl, rfl, rfl⟩
  | create_event hopen =>
      obtain ⟨s, κ₁, hfind, rfl, rfl⟩ := Kernel.open_handle_cases hopen
      obtain ⟨T, hT, rfl⟩ := Kernel.find_cases hfind
      exact .inr (.inl ⟨_, true, s, rfl, hT, rfl, rfl⟩)
  | open_event hopen =>
      obtain ⟨s, κ₁, hfind, rfl, rfl⟩ := Kernel.open_handle_cases hopen
      obtain ⟨T, hT, rfl⟩ := Kernel.find_cases hfind
      exact .inr (.inl ⟨_, false, s, rfl, hT, rfl, rfl⟩)
  | set_event _ => exact .inl ⟨rfl, rfl, rfl, rfl⟩
  | wait_for _ _ => exact .inl ⟨rfl, rfl, rfl, rfl⟩
  | close handle => exact .inr (.inr ⟨handle, rfl, rfl⟩)
  | opened e => exact .inl ⟨rfl, rfl, rfl, rfl⟩
  | _ => exact absurd trivial ha

/-! ### The handles and the names -/

/-- Each handle has a value of its own, and its name stands for its object. -/
structure Tidy (κ : Kernel) : Prop where
  sound : κ.table.Sound
  fresh : ∀ o ∈ κ.handles, o.value < κ.next_handle
  unique : ∀ o ∈ κ.handles, ∀ p ∈ κ.handles, o.value = p.value → o = p
  named : ∀ o ∈ κ.handles, κ.table.object o.name = some o.object

theorem Tidy.lookup {κ : Kernel} (h : Tidy κ) {o : OpenHandle} (ho : o ∈ κ.handles) :
    κ.lookup o.value = some o := by
  cases hfound : κ.lookup o.value with
  | none => exact absurd (decide_eq_true rfl) (List.find?_eq_none.mp hfound o ho)
  | some p =>
      have hp : p ∈ κ.handles := List.mem_of_find?_eq_some hfound
      have hvalue : p.value = o.value :=
        of_decide_eq_true
          (List.find?_some (p := fun q : OpenHandle => decide (q.value = o.value)) hfound)
      rw [h.unique p hp o ho hvalue]

/-- The handles that are left when one is closed. -/
theorem close_cases {κ : Kernel} (handle : ℕ) :
    (κ.close handle).next_handle = κ.next_handle ∧
      ∀ p, p ∈ (κ.close handle).handles ↔ p ∈ κ.handles ∧ p.value ≠ handle := by
  unfold Kernel.close
  split
  · rename_i hnone
    refine ⟨rfl, fun p => ⟨fun hp => ⟨hp, fun hvalue => ?_⟩, fun hp => hp.1⟩⟩
    exact List.find?_eq_none.mp hnone p hp (decide_eq_true hvalue)
  · refine ⟨rfl, fun p => ?_⟩
    show p ∈ κ.handles.filter (fun p => p.value ≠ handle) ↔ _
    rw [List.mem_filter]
    exact and_congr_right fun _ => decide_eq_true_iff

/-- A name goes with the last handle to its object only. -/
theorem Tidy.close {κ : Kernel} (h : Tidy κ) (handle : ℕ) : Tidy (κ.close handle) := by
  obtain ⟨hnext, hhandles⟩ := close_cases (κ := κ) handle
  have htable : (κ.close handle).table = κ.table ∨
      ∃ o ∈ κ.handles, (κ.close handle).table = κ.table.unlink o.name ∧
        ∀ p ∈ (κ.close handle).handles, p.object ≠ o.object := by
    unfold Kernel.close
    split
    · exact .inl rfl
    · rename_i o hfound
      have ho : o ∈ κ.handles := List.mem_of_find?_eq_some hfound
      by_cases hany : (κ.handles.filter fun p => p.value ≠ handle).any fun p => p.object = o.object
      · exact .inl (if_pos hany)
      · refine .inr ⟨o, ho, if_neg hany, fun p hp hobject => hany ?_⟩
        exact List.any_eq_true.mpr ⟨p, hp, decide_eq_true hobject⟩
  refine ⟨?_, fun o ho => ?_, fun o ho p hp => ?_, fun p hp => ?_⟩
  · obtain heq | ⟨o, -, heq, -⟩ := htable
    · exact heq ▸ h.sound
    · exact heq ▸ h.sound.unlink
  · exact hnext ▸ h.fresh o ((hhandles o).mp ho).1
  · exact h.unique o ((hhandles o).mp ho).1 p ((hhandles p).mp hp).1
  · have hnamed := h.named p ((hhandles p).mp hp).1
    obtain heq | ⟨o, ho, heq, hothers⟩ := htable
    · rw [heq]
      exact hnamed
    · rw [heq, Table.unlink_of_ne]
      · exact hnamed
      · intro hname
        have hobject : κ.table.object o.name = some p.object := hname ▸ hnamed
        exact hothers p hp (Option.some.inj (hobject.symm.trans (h.named o ho)))

theorem Tidy.changes {κ κ' : Kernel} {a : Action} {r : Answer a} (h : Tidy κ)
    (hc : O.Changes κ a r κ') (ha : ¬ OfPosix a) : Tidy κ' := by
  obtain ⟨-, hhandles, hnext, htable⟩ | ⟨name, create, s, -, hfind, hhandles, hnext⟩ | ⟨handle,
      -, rfl⟩ := hc.handles ha
  · exact ⟨htable ▸ h.sound, hhandles ▸ hnext ▸ h.fresh, hhandles ▸ h.unique,
      hhandles ▸ htable ▸ h.named⟩
  · refine ⟨h.sound.find hfind, fun o ho => ?_, fun o ho p hp hvalue => ?_, fun o ho => ?_⟩
    · rw [hnext]
      rcases List.mem_cons.mp (hhandles ▸ ho) with rfl | ho
      · exact Nat.lt_succ_self _
      · exact Nat.lt_succ_of_lt (h.fresh o ho)
    · rcases List.mem_cons.mp (hhandles ▸ ho) with rfl | ho <;>
        rcases List.mem_cons.mp (hhandles ▸ hp) with rfl | hp
      · rfl
      · exact absurd (h.fresh p hp) (hvalue ▸ lt_irrefl _)
      · exact absurd (h.fresh o ho) (hvalue ▸ lt_irrefl _)
      · exact h.unique o ho p hp hvalue
    · rcases List.mem_cons.mp (hhandles ▸ ho) with rfl | ho
      · exact Table.find_object hfind
      · exact Table.object_find hfind (h.named o ho)
  · exact h.close handle

theorem tidy (hO : O.target = .windows) (hlive : u.live = []) (hu : Tidy u)
    (h : O.service.Reaches u σ) :
    Tidy σ.state.state := by
  refine h.induct (P := fun τ => Tidy τ.state.state) hu (fun τ k a rest ch r v hτ ih hp hx => ?_)
    (fun τ call v _ ih _ haccept => ?_)
  · have hticked : Tidy (τ.state.state.tick ch) := ⟨ih.sound, ih.fresh, ih.unique, ih.named⟩
    exact hticked.changes (kernel_changes hx) (not_ofPosix hO hlive hτ hp)
  · obtain ⟨-, live, -, rfl⟩ := accept_cases haccept
    exact ⟨ih.sound, ih.fresh, ih.unique, ih.named⟩

/-! ### Who was given a handle -/

/-- Call `j` was given this handle, to the event of this name. -/
def Given (log : List (Performed os)) (j : ℕ) (name : List Char) (handle : ℕ) : Prop :=
  ∃ x ∈ log, x.call = j ∧ given x.action x.answer = some (name, handle)

/-- The handles that were given: each to one call, and open until it is closed. -/
structure Accounted (O : Os) (log : List (Performed os)) (κ : Kernel) : Prop where
  fresh : ∀ j name handle, Given log j name handle → handle < κ.next_handle
  once : ∀ j k m n handle, Given log j m handle → Given log k n handle → j = k ∧ m = n
  kept : ∀ j name handle, Given log j name handle →
    (∃ o ∈ κ.handles, o.value = handle ∧ o.name = O.read_wide name) ∨ ∃ k,
      ⟨k, .close_handle handle, ()⟩ ∈ log

theorem given_cons {log : List (Performed os)} {x : Performed os} {j handle : ℕ} {name : List Char}
    (h : Given (x :: log) j name handle) :
    (x.call = j ∧ given x.action x.answer = some (name, handle)) ∨ Given log j name handle := by
  obtain ⟨y, hy, hcall, hgiven⟩ := h
  rcases List.mem_cons.mp hy with rfl | hy
  · exact .inl ⟨hcall, hgiven⟩
  · exact .inr ⟨y, hy, hcall, hgiven⟩

theorem Accounted.changes {log : List (Performed os)} {κ κ' : Kernel} {k : ℕ}
    {a : Action} {r : Answer a} (h : Accounted O log κ) (hc : O.Changes κ a r κ')
    (ha : ¬ OfPosix a) : Accounted O (⟨k, a, r⟩ :: log) κ' := by
  have hclosed : ∀ {handle}, (∃ k, ⟨k, .close_handle handle, ()⟩ ∈ log) →
      ∃ j, ⟨j, .close_handle handle, ()⟩ ∈ (⟨k, a, r⟩ :: log : List (Performed os)) := by
    rintro handle ⟨j, hj⟩
    exact ⟨j, List.mem_cons_of_mem _ hj⟩
  obtain ⟨hnone, hhandles, hnext, -⟩ | ⟨name, create, s, hsome, -, hhandles, hnext⟩ | ⟨handle,
      rfl, rfl⟩ := hc.handles ha
  · -- neither a new handle nor one less
    have hold : ∀ {j name handle}, Given (⟨k, a, r⟩ :: log) j name handle →
        Given log j name handle := by
      intro j name handle hgiven
      rcases given_cons hgiven with ⟨-, hnew⟩ | hold
      · rw [hnone] at hnew
        cases hnew
      · exact hold
    refine ⟨fun j name handle hj => hnext ▸ h.fresh j name handle (hold hj),
      fun i j m n handle hi hj => h.once i j m n handle (hold hi) (hold hj), fun j name handle hj =>
        ?_⟩
    rw [hhandles]
    exact (h.kept j name handle (hold hj)).imp id hclosed
  · have hnew : ∀ {j m handle}, k = j ∧ given a r = some (m, handle) → k = j ∧ name = m ∧
        κ.next_handle = handle := by
      rintro j m handle ⟨hj, hgiven⟩
      rw [hsome] at hgiven
      cases hgiven
      exact ⟨hj, rfl, rfl⟩
    refine ⟨fun j m handle hj => ?_, fun i j m n handle hi hj => ?_, fun j m handle hj => ?_⟩
    · rw [hnext]
      rcases given_cons hj with hj | hj
      · obtain ⟨-, -, rfl⟩ := hnew hj
        exact Nat.lt_succ_self _
      · exact Nat.lt_succ_of_lt (h.fresh j m handle hj)
    · rcases given_cons hi with hi | hi <;> rcases given_cons hj with hj | hj
      · obtain ⟨rfl, rfl, -⟩ := hnew hi
        obtain ⟨rfl, rfl, -⟩ := hnew hj
        exact ⟨rfl, rfl⟩
      · obtain ⟨-, -, rfl⟩ := hnew hi
        exact absurd (h.fresh j n _ hj) (lt_irrefl _)
      · obtain ⟨-, -, rfl⟩ := hnew hj
        exact absurd (h.fresh i m _ hi) (lt_irrefl _)
      · exact h.once i j m n handle hi hj
    · rw [hhandles]
      rcases given_cons hj with hj | hj
      · obtain ⟨-, rfl, rfl⟩ := hnew hj
        exact .inl ⟨_, List.mem_cons_self, rfl, rfl⟩
      · refine (h.kept j m handle hj).imp (fun hopen => ?_) hclosed
        obtain ⟨o, ho, heq⟩ := hopen
        exact ⟨o, List.mem_cons_of_mem _ ho, heq⟩
  · obtain ⟨hnext, hhandles⟩ := close_cases (κ := κ) handle
    have hold : ∀ {j name other}, Given (⟨k, .close_handle handle, r⟩ :: log) j name other →
        Given log j name other := by
      intro j name other hgiven
      rcases given_cons hgiven with ⟨-, hnew⟩ | hold
      · cases hnew
      · exact hold
    refine ⟨fun j m other hj => hnext ▸ h.fresh j m other (hold hj),
      fun i j m n other hi hj => h.once i j m n other (hold hi) (hold hj), fun j m other hj => ?_⟩
    by_cases heq : other = handle
    · subst heq
      exact .inr ⟨k, List.mem_cons_self⟩
    · refine (h.kept j m other (hold hj)).imp (fun hopen => ?_) hclosed
      obtain ⟨o, ho, rfl, hname⟩ := hopen
      exact ⟨o, (hhandles o).mpr ⟨ho, heq⟩, rfl, hname⟩

theorem accounted (hO : O.target = .windows) (hlive : u.live = []) (h : O.service.Reaches u σ) :
    Accounted O σ.state.log σ.state.state := by
  have hnone : ∀ {j name handle}, ¬ Given [] j name handle := by
    rintro j name handle ⟨x, hx, -⟩
    exact List.not_mem_nil hx
  refine h.induct (P := fun τ => Accounted O τ.state.log τ.state.state) ?_
    (fun τ k a rest ch r v hτ ih hp hx => ?_) (fun τ call v _ ih _ haccept => ?_)
  · exact ⟨fun _ _ _ hj => absurd hj hnone, fun _ _ _ _ _ hj => absurd hj hnone,
      fun _ _ _ hj => absurd hj hnone⟩
  · have hticked : Accounted O τ.state.log (τ.state.state.tick ch) := ⟨ih.fresh, ih.once, ih.kept⟩
    exact hticked.changes (kernel_changes hx) (not_ofPosix hO hlive hτ hp)
  · obtain ⟨-, live, -, rfl⟩ := accept_cases haccept
    exact ⟨ih.fresh, ih.once, ih.kept⟩

/-- The call makes a handle to the event of this name. -/
def Attaches (name : String) : Call → Prop
  | .create n | .open_ n => n = name
  | _ => False

/-- What `create` and `open` do: they are given a handle, and return it. -/
theorem program_attach (hO : O.target = .windows) {call : Call} {name : String}
    (hcall : Attaches name call) :
    ∃ (a : Action) (rest : Answer a → Program os Unit), O.program call = .act a rest ∧
      (∀ result, a ≠ .opened result) ∧
      ∀ r, (∃ handle, given a r = some (NamedEvent.wide name, handle) ∧
        rest r = opened (.ok (.windows handle))) ∨
        ∃ text, rest r = opened (.error text) := by
  cases call with
  | create n =>
      obtain rfl : n = name := hcall
      obtain ⟨rest, hprogram, hok, text, herror⟩ := @program_create_windows O n hO
      refine ⟨.create_event (NamedEvent.wide n), rest, hprogram, fun _ h =>
        (by cases h), fun r => ?_⟩
      cases r with
      | some handle => exact .inl ⟨handle, rfl, hok handle⟩
      | none => exact .inr ⟨text, herror⟩
  | open_ n =>
      obtain rfl : n = name := hcall
      obtain ⟨rest, hprogram, hok, text, herror⟩ := @program_open_windows O n hO
      refine ⟨.open_event (NamedEvent.wide n), rest, hprogram, fun _ h => (by cases h), fun r => ?_⟩
      cases r with
      | some handle => exact .inl ⟨handle, rfl, hok handle⟩
      | none => exact .inr ⟨text, herror⟩
  | _ => exact hcall.elim

section Past

variable {k : ℕ} {name : List Char} {e : NamedEvent} {a : Action}
    {rest : Answer a → Program os Unit}
  {done : List (Performed os)} {q : Program os Unit}

/-- A handle is returned by the call that was given it, and once. -/
theorem past_attach (ha : ∀ result, a ≠ .opened result)
    (hrest : ∀ r,
    (∃ handle, given a r = some (name, handle) ∧ rest r = opened (.ok (.windows handle))) ∨
      ∃ text, rest r = opened (.error text))
    (h : Past k (act (S := os) a rest) done q)
    (hx : ⟨k, .opened (.ok e), ()⟩ ∈ done ∨ ∃ f, q = act (S := os) (.opened (.ok e)) f) :
    (∃ handle, e = .windows handle ∧ Given done k name handle) ∧
      (⟨k, .opened (.ok e), ()⟩ ∈ done → ∀ f, q ≠ act (S := os) (.opened (.ok e)) f) := by
  have hfirst : ∀ {r}, (⟨k, .opened (.ok e), ()⟩ : Performed os) ≠ ⟨k, a, r⟩ := by
    intro r heq
    cases heq
    exact ha _ rfl
  obtain ⟨rfl, rfl⟩ | ⟨r, later, rfl, hlater⟩ := h.act_cases
  · rcases hx with hx | ⟨f, hf⟩
    · cases hx
    · cases hf
      exact absurd rfl (ha _)
  · have hgiven : ⟨k, a, r⟩ ∈ later ++ [⟨k, a, r⟩] :=
      List.mem_append_right _ (List.mem_singleton_self _)
    rcases hrest r with ⟨handle, hr, hrest⟩ | ⟨text, hrest⟩ <;>
      obtain ⟨rfl, rfl⟩ | ⟨rfl, rfl⟩ := past_returned (hrest ▸ hlater)
    · -- the handle is about to be returned
      have hnot : ⟨k, .opened (.ok e), ()⟩ ∉ ([] ++ [⟨k, a, r⟩] : List (Performed os)) := fun hx =>
        hfirst (List.mem_singleton.mp hx)
      rcases hx with hx | ⟨f, hf⟩
      · exact absurd hx hnot
      · cases hf
        exact ⟨⟨handle, rfl, ⟨k, a, r⟩, hgiven, rfl, hr⟩, fun hx => absurd hx hnot⟩
    · refine ⟨?_, fun _ f hf => by cases hf⟩
      rcases hx with hx | ⟨f, hf⟩
      · rcases List.mem_cons.mp hx with heq | hx
        · cases heq
          exact ⟨handle, rfl, ⟨k, a, r⟩, hgiven, rfl, hr⟩
        · exact absurd (List.mem_singleton.mp hx) hfirst
      · cases hf
    · rcases hx with hx | ⟨f, hf⟩
      · exact absurd (List.mem_singleton.mp hx) hfirst
      · cases hf
    · rcases hx with hx | ⟨f, hf⟩
      · rcases List.mem_cons.mp hx with heq | hx
        · cases heq
        · exact absurd (List.mem_singleton.mp hx) hfirst
      · cases hf

end Past

/-- **Whoever returns an event was given its handle**, and returns it once. -/
theorem given_of_returned (hO : O.target = .windows) (h : O.service.Reaches u σ)
    {j : ℕ} {e : NamedEvent} (hj : Returned j e σ.state.log ∨
      ∃ f, σ.program j = act (S := os) (.opened (.ok e)) f) :
    (∃ call name handle, σ.state.calls[j]? = some call ∧ Attaches name call ∧ e = .windows handle ∧
      Given σ.state.log j (NamedEvent.wide name) handle) ∧
      (Returned j e σ.state.log → ∀ f, σ.program j ≠ act (S := os) (.opened (.ok e)) f) := by
  obtain ⟨call, hcall, hdoes⟩ : ∃ call, σ.state.calls[j]? = some call ∧
      O.Does call (.opened (.ok e)) := by
    rcases hj with hj | ⟨f, hf⟩
    · exact logged_does h hj
    · exact next_does h hf
  obtain ⟨name, hattaches⟩ : ∃ name, Attaches name call := by
    cases hdoes with
    | created _ _ _ => exact ⟨_, rfl⟩
    | opened _ _ _ => exact ⟨_, rfl⟩
    | created_event _ _ => exact ⟨_, rfl⟩
    | opened_event _ _ => exact ⟨_, rfl⟩
  obtain ⟨a, rest, hprogram, ha, hrest⟩ := program_attach hO hattaches
  have hpast := h.past hcall
  obtain ⟨⟨handle, rfl, x, hx, hgiven⟩, honce⟩ := past_attach ha hrest (hprogram ▸ hpast)
    (hj.imp (fun hj => mem_deeds.mpr ⟨hj, rfl⟩) id)
  exact ⟨⟨call, name, handle, hcall, hattaches, rfl, x, (mem_deeds.mp hx).1, hgiven⟩,
    fun hj => honce (mem_deeds.mpr ⟨hj, rfl⟩)⟩

/-- What a call takes when it begins: a drop takes its event. -/
theorem accept_live {call : Call} {κ κ' : Kernel} (h : accept call κ = some κ') :
    (κ'.live = κ.live ∧ ∀ e, call ≠ .drop e) ∨
      ∃ e, call = .drop e ∧ e ∈ κ.live ∧ κ' = { κ with live := κ.live.erase e } := by
  cases call with
  | drop e =>
      obtain ⟨he, h⟩ := Option.ite_none_right_eq_some.mp h
      exact .inr ⟨e, rfl, he, (Option.some.inj h).symm⟩
  | signal e =>
      obtain ⟨-, h⟩ := Option.ite_none_right_eq_some.mp h
      cases h
      exact .inl ⟨rfl, fun _ h => by cases h⟩
  | wait e ms =>
      obtain ⟨-, h⟩ := Option.ite_none_right_eq_some.mp h
      cases h
      exact .inl ⟨rfl, fun _ h => by cases h⟩
  | _ =>
      cases h
      exact .inl ⟨rfl, fun _ h => by cases h⟩

/-- What the processes have is theirs: each event once, and none that was dropped. -/
structure Owned (calls : List Call) (κ : Kernel) : Prop where
  once : κ.live.Nodup
  dropped : ∀ e, .drop e ∈ calls → e ∉ κ.live

theorem owned (hO : O.target = .windows) (hlive : u.live = []) (h : O.service.Reaches u σ) :
    Owned σ.state.calls σ.state.state := by
  refine h.induct (P := fun τ => Owned τ.state.calls τ.state.state) ?_
    (fun τ k a rest ch r v hτ ih hp hx => ?_) (fun τ call v hτ ih _ haccept => ?_)
  · refine ⟨?_, fun e he => absurd he List.not_mem_nil⟩
    show u.live.Nodup
    rw [hlive]
    exact List.nodup_nil
  · rcases (kernel_changes hx).live with hsame | ⟨e, rfl, hnew⟩
    · exact ⟨hsame ▸ ih.once, fun e he => hsame ▸ ih.dropped e he⟩
    · -- nobody has had the event that is returned now
      have hfirst : ∀ j, ¬ Returned j e τ.state.log := by
        intro j hj
        obtain ⟨⟨_, _, handle, _, _, rfl, hgiven⟩, honce⟩ := given_of_returned hO hτ (.inl hj)
        obtain ⟨⟨_, _, handle', _, _, heq, hgiven'⟩, -⟩ := given_of_returned hO hτ (.inr ⟨rest, hp⟩)
        cases heq
        obtain ⟨rfl, -⟩ := (accounted hO hlive hτ).once _ _ _ _ _ hgiven hgiven'
        exact honce hj rest hp
      obtain ⟨hhad, hused⟩ := live_returned hlive hτ
      refine ⟨?_, fun f hf => ?_⟩
      · rw [hnew]
        exact List.nodup_cons.mpr ⟨fun he => (hhad e he).elim fun j hj => hfirst j hj, ih.once⟩
      · rw [hnew]
        intro hmem
        rcases List.mem_cons.mp hmem with rfl | hmem
        · exact (hused _ hf f rfl).elim fun j hj => hfirst j hj
        · exact ih.dropped f hf hmem
  · obtain hsame | ⟨e, rfl, he, rfl⟩ := accept_live haccept
    · refine ⟨hsame.1 ▸ ih.once, fun e he => ?_⟩
      rcases List.mem_append.mp he with he | he
      · exact hsame.1 ▸ ih.dropped e he
      · exact absurd (List.mem_singleton.mp he).symm (hsame.2 e)
    · refine ⟨ih.once.erase e, fun f hf hmem => ?_⟩
      rcases List.mem_append.mp hf with hf | hf
      · exact ih.dropped f hf (List.mem_of_mem_erase hmem)
      · cases List.mem_singleton.mp hf
        exact ih.once.not_mem_erase hmem

/-- A process has the event with this handle, from a call that named it so. -/
def Has (σ : Configuration os ℕ (Session os Kernel Call)) (handle : ℕ) (name : String) : Prop :=
  .windows handle ∈ σ.state.state.live ∧ ∃ j call, Returned j (.windows handle) σ.state.log ∧
    σ.state.calls[j]? = some call ∧ Attaches name call

/-- An event that a process has is open. -/
theorem Has.lookup {handle : ℕ} {name : String} (hO : O.target = .windows)
    (hlive : u.live = []) (hu : Tidy u) (h : O.service.Reaches u σ) (hhas : Has σ handle name) :
    ∃ o ∈ σ.state.state.handles, σ.state.state.lookup handle = some o ∧
      o.name = O.read_wide (NamedEvent.wide name) := by
  obtain ⟨hmem, j, call, hj, hcall, hname⟩ := hhas
  obtain ⟨⟨call', name', handle', hcall', hname', heq, hgiven⟩, -⟩ :=
    given_of_returned hO h (.inl hj)
  cases heq
  cases hcall.symm.trans hcall'
  obtain rfl : name = name' := by
    cases call with
    | create n => exact hname.symm.trans hname'
    | open_ n => exact hname.symm.trans hname'
    | _ => exact hname.elim
  rcases (accounted hO hlive h).kept j _ _ hgiven with ⟨o, ho, rfl, hname⟩ | ⟨k, hk⟩
  · exact ⟨o, ho, (tidy hO hlive hu h).lookup ho, hname⟩
  · -- only the drop of the event closes its handle
    obtain ⟨dropping, hdropping, hdoes⟩ := logged_does h hk
    cases hdoes
    exact absurd hmem ((owned hO hlive h).dropped _ (List.mem_of_getElem? hdropping))

/-- **Which events are the same.**  Every event that a process has is an open handle; two of them
are of the same object exactly if the calls that they are from named the same event, and as long as
anybody has one its name stands for that object. -/
theorem handles_meet_iff (hO : O.target = .windows) (hlive : u.live = []) (hu : Tidy u)
    (h : O.service.Reaches u σ) :
    (∀ e ∈ σ.state.state.live, ∃ s m, e = .windows s ∧ Has σ s m) ∧
    ∀ s t m n, Has σ s m → Has σ t n → ∃ o p, σ.state.state.lookup s = some o ∧
      σ.state.state.lookup t = some p ∧
      σ.state.state.table.object (O.read_wide (NamedEvent.wide m)) = some o.object ∧
      (o.object = p.object ↔
        O.read_wide (NamedEvent.wide m) = O.read_wide (NamedEvent.wide n)) := by
  have htidy := tidy hO hlive hu h
  refine ⟨fun e he => ?_, fun s t m n hs ht => ?_⟩
  · obtain ⟨j, hj⟩ := (live_returned hlive h).1 e he
    obtain ⟨⟨call, name, handle, hcall, hname, rfl, -⟩, -⟩ := given_of_returned hO h (.inl hj)
    exact ⟨handle, name, rfl, he, j, call, hj, hcall, hname⟩
  · obtain ⟨o, ho, hlookup, honame⟩ := hs.lookup hO hlive hu h
    obtain ⟨p, hp, hlookup', hpname⟩ := ht.lookup hO hlive hu h
    have hostands := htidy.named o ho
    have hpstands := htidy.named p hp
    rw [honame] at hostands
    rw [hpname] at hpstands
    refine ⟨o, p, hlookup, hlookup', hostands, fun heq => ?_, fun heq => ?_⟩
    · rw [← heq] at hpstands
      exact htidy.sound.unique hostands hpstands
    · rw [← heq] at hpstands
      exact Option.some.inj (hostands.symm.trans hpstands)

/-- A hub creates its event, a worker opens it and signals, and the hub drops it and creates it
again. -/
def restart_windows : List (Move ℕ Choice Call) :=
  [.launch (.create "w"), .run 0 prompt, .run 0 prompt, .launch (.open_ "w"),
    .run 1 prompt, .run 1 prompt,
    .launch (.signal (.windows 1)), .run 2 prompt, .launch (.drop (.windows 0)), .run 3 prompt,
    .launch (.create "w"), .run 4 prompt, .run 4 prompt]

theorem restart_windows_runs : (run ⟨.windows, id, 0⟩ restart_windows).isSome := by decide +kernel

theorem booted_tidy : Tidy booted where
  sound := ⟨fun h => (by cases h), fun h => (by cases h)⟩
  fresh _ ho := absurd ho List.not_mem_nil
  unique _ ho := absurd ho List.not_mem_nil
  named _ ho := absurd ho List.not_mem_nil

/-- After the restart the worker and the hub have the same event still. -/
theorem handles_meet_after_restart : ∃ σ : Configuration os ℕ (Session os Kernel Call),
    Service.Reaches (Os.service ⟨.windows, id, 0⟩) booted σ ∧ Has σ 1 "w" ∧ Has σ 2 "w" ∧
      ∃ o p, σ.state.state.lookup 1 = some o ∧ σ.state.state.lookup 2 = some p ∧
        o.object = p.object := by
  have hreaches := reaches_run restart_windows_runs
  have hworker : Has (Option.get _ restart_windows_runs) 1 "w" :=
    ⟨by decide +kernel, 1, .open_ "w", logged_of_exists (fun _ => rfl) (by decide +kernel), by
      decide +kernel, rfl⟩
  have hhub : Has (Option.get _ restart_windows_runs) 2 "w" :=
    ⟨by decide +kernel, 4, .create "w", logged_of_exists (fun _ => rfl) (by decide +kernel), by
      decide +kernel, rfl⟩
  obtain ⟨o, p, ho, hp, -, hsame⟩ :=
    (handles_meet_iff rfl rfl booted_tidy hreaches).2 1 2 "w" "w" hworker hhub
  exact ⟨_, hreaches, hworker, hhub, o, p, ho, hp, hsame.mpr rfl⟩

end Os

end Events

end SlotBus
