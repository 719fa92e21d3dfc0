import SlotBus.World

/-!
# The ownership ledger

What the slots of a bus are for, without bytes, names or events: a slot is free, or exactly one
activity owns it, or it holds a request or a response that is ready to be taken.  A `Ledger` says
who owns each slot, how far each thread has come with its own slot, and which handler invocations
and `send_response` calls there are; `Ledger.Step` is the way they may change.

* `Ledger.Invariant` — owners and phases agree;
* `step_invariant` — every step keeps that.
-/

namespace SlotBus

/-- Who owns a slot: a dispatch call `k` that writes its request, a receive loop `l` that reads it,
a handler invocation `h`, or nobody, with the request of `k` or the answer that the `c`-th
`send_response` call gave to it in the slot. -/
inductive Owner where
  | free
  | writing (k : ℕ)
  | ready (k : ℕ)
  | reading (l k : ℕ)
  | handling (h k : ℕ)
  | done (h k c : ℕ)
  deriving DecidableEq

namespace Owner

/-- The status word that goes with the owner. -/
def status : Owner → ℕ
  | .free => SLOT_FREE
  | .writing _ => SLOT_WRITING
  | .ready _ => SLOT_READY
  | .reading _ _ | .handling _ _ => SLOT_CLAIMED
  | .done _ _ _ => SLOT_DONE

/-- The dispatch call whose request is in the slot. -/
def call : Owner → Option ℕ
  | .free => none
  | .writing k | .ready k | .reading _ k | .handling _ k | .done _ k _ => some k

theorem eq_free {o : Owner} (h : o.status = SLOT_FREE) : o = .free := by
  cases o <;> first | rfl | simp [status, SLOT_FREE, SLOT_WRITING, SLOT_READY,
    SLOT_CLAIMED, SLOT_DONE] at h

theorem eq_ready {o : Owner} (h : o.status = SLOT_READY) : ∃ k, o = .ready k := by
  cases o <;> first
    | exact ⟨_, rfl⟩
    | simp [status, SLOT_FREE, SLOT_WRITING, SLOT_READY, SLOT_CLAIMED, SLOT_DONE] at h

theorem eq_done {o : Owner} (h : o.status = SLOT_DONE) : ∃ n k c, o = .done n k c := by
  cases o <;> first
    | exact ⟨_, _, _, rfl⟩
    | simp [status, SLOT_FREE, SLOT_WRITING, SLOT_READY, SLOT_CLAIMED, SLOT_DONE] at h

/-- The receive loop that reads the slot. -/
def loop : Owner → Option ℕ
  | .reading l _ => some l
  | _ => none

/-- The handler invocation that has to answer. -/
def invocation : Owner → Option ℕ
  | .handling h _ => some h
  | _ => none

/-- The thread that alone passes a slot with this owner on. -/
def KeptBy : Owner → Thread → Prop
  | .writing k, .dispatch j => k = j
  | .reading l _, .receive j => l = j
  | .done _ _ _, .watcher => True
  | _, _ => False

end Owner

/-- How far a thread has come with its slot. -/
inductive Phase where
  | idle
  | holding (slot : ℕ)
  | published (slot : ℕ)
  | released (slot : ℕ)
  | kept (slot : ℕ)
  | registered (slot : ℕ)
  | failed
  deriving DecidableEq

namespace Phase

/-- The slot a thread has worked on. -/
def slot : Phase → Option ℕ
  | .idle | .failed => none
  | .holding i | .published i | .released i | .kept i | .registered i => some i

/-- A `send_response` call in this phase has not touched the slot's status. -/
def Waiting (p : Phase) : Prop := p = .idle ∨ p = .failed

/-- What a thread does after it has published a slot, or instead of touching one. -/
inductive Follows : Phase → Phase → Prop where
  | keep (i : ℕ) : Follows (.published i) (.kept i)
  | register (i : ℕ) : Follows (.published i) (.registered i)
  | register_kept (i : ℕ) : Follows (.kept i) (.registered i)
  | fail : Follows .idle .failed

variable {p q : Phase}

theorem Follows.holding_iff (h : Follows p q) (i : ℕ) : q = .holding i ↔ p = .holding i := by
  cases h <;> simp

theorem Follows.slot_eq (h : Follows p q) : q.slot = p.slot := by
  cases h <;> rfl

theorem Follows.waiting_iff (h : Follows p q) : q.Waiting ↔ p.Waiting := by
  cases h <;> simp [Waiting]

theorem Follows.of_failed (h : Follows p q) : p ≠ .failed := by
  cases h <;> simp

end Phase

/-- The owners of the slots, the phases of the threads, the slot of each handler invocation, and the
invocation of each `send_response` call. -/
structure Ledger where
  owner : ℕ → Owner
  phase : Thread → Phase
  slot_of : ℕ → Option ℕ
  invocation_of : ℕ → Option ℕ

namespace Ledger

/-- Thread `t` passes slot `i` on. -/
def pass (L : Ledger) (t : Thread) (i : ℕ) (o : Owner) (p : Phase) : Ledger :=
  { L with owner := Function.update L.owner i o, phase := Function.update L.phase t p }

/-- `send_response` call `c` is the one that may answer invocation `h`: every other one has failed
before it touched the slot. -/
structure Sole (L : Ledger) (c h : ℕ) : Prop where
  invocation : L.invocation_of c = some h
  idle : L.phase (.respond c) = .idle
  others : ∀ d, d ≠ c → L.invocation_of d = some h → L.phase (.respond d) = .failed

/-- How a thread may pass a slot on. -/
inductive Turn (L : Ledger) : Thread → ℕ → Owner → Phase → Prop where
  | claim {k i : ℕ} (h : L.owner i = .free) (hidle : L.phase (.dispatch k) = .idle) :
      Turn L (.dispatch k) i (.writing k) (.holding i)
  | publish {k i : ℕ} (h : L.owner i = .writing k) :
      Turn L (.dispatch k) i (.ready k) (.published i)
  | withdraw {k i : ℕ} (h : L.owner i = .writing k) : Turn L (.dispatch k) i .free (.released i)
  | take {l k i : ℕ} (h : L.owner i = .ready k) (hidle : ∀ j, L.phase (.receive l) ≠ .holding j) :
      Turn L (.receive l) i (.reading l k) (.holding i)
  | reject {l k i : ℕ} (h : L.owner i = .reading l k) : Turn L (.receive l) i .free (.released i)
  | answer {n k c i : ℕ} (h : L.owner i = .handling n k) (hc : L.Sole c n) :
      Turn L (.respond c) i (.done n k c) (.published i)
  | give_up {n k c i : ℕ} (h : L.owner i = .handling n k) (hc : L.Sole c n) :
      Turn L (.respond c) i .free (.released i)
  | collect {n k c i : ℕ} (h : L.owner i = .done n k c) : Turn L .watcher i .free (.holding i)

/-- Only the thread that keeps a slot passes it on. -/
theorem Turn.eq_of_kept {L : Ledger} {t u : Thread} {i : ℕ} {o : Owner}
    {p : Phase} (h : L.Turn u i o p) (hkept : (L.owner i).KeptBy t) : u = t := by
  cases h with
  | claim h | take h | answer h | give_up h =>
      rw [h] at hkept
      cases t <;> exact hkept.elim
  | publish h | withdraw h =>
      rw [h] at hkept
      cases t with
      | dispatch j => exact congrArg Thread.dispatch hkept
      | _ => exact hkept.elim
  | reject h =>
      rw [h] at hkept
      cases t with
      | receive j => exact congrArg Thread.receive hkept
      | _ => exact hkept.elim
  | collect h =>
      rw [h] at hkept
      cases t with
      | watcher => rfl
      | _ => exact hkept.elim

/-- One step of the ledger. -/
inductive Step (L : Ledger) : Ledger → Prop where
  | turn {t : Thread} {i : ℕ} {o : Owner} {p : Phase} (h : L.Turn t i o p) : Step L (L.pass t i o p)
  | invoke {l n k i : ℕ} (h : L.owner i = .reading l k) (hn : L.slot_of n = none)
      (hreply : ∀ c, L.invocation_of c ≠ some n) :
      Step L { L.pass (.receive l) i (.handling n k) (.released i) with
        slot_of := Function.update L.slot_of n (some i) }
  | follow {t : Thread} {p : Phase} (h : (L.phase t).Follows p) :
      Step L { L with phase := Function.update L.phase t p }
  | reply {c n i : ℕ} (hc : L.invocation_of c = none) (hidle : L.phase (.respond c) = .idle)
      (hn : L.slot_of n = some i)
      (hothers : ∀ d, L.invocation_of d = some n → L.phase (.respond d) = .failed) :
      Step L { L with invocation_of := Function.update L.invocation_of c (some n) }

/-- **Owners and phases agree.** -/
structure Invariant (L : Ledger) : Prop where
  writing : ∀ i k, L.owner i = .writing k ↔ L.phase (.dispatch k) = .holding i
  reading : ∀ i l, (L.owner i).loop = some l ↔ L.phase (.receive l) = .holding i
  claimed : ∀ i k, (L.owner i).call = some k → (L.phase (.dispatch k)).slot = some i
  handling : ∀ i n, (L.owner i).invocation = some n ↔
    L.slot_of n = some i ∧ ∀ c, L.invocation_of c = some n → (L.phase (.respond c)).Waiting
  done : ∀ i n k c, L.owner i = .done n k c → L.slot_of n = some i ∧ L.invocation_of c = some n ∧
    ¬ (L.phase (.respond c)).Waiting

variable {L L' : Ledger}

section Turns

variable {t : Thread} {i : ℕ} {o : Owner} {p : Phase}

/-- A slot changes hands only at the slot in question. -/
@[simp] theorem pass_owner (L : Ledger) (t : Thread) (i : ℕ) (o : Owner) (p : Phase) (j : ℕ) :
    (L.pass t i o p).owner j = if j = i then o else L.owner j := by
  simp [pass, Function.update_apply]

@[simp] theorem pass_phase (L : Ledger) (t : Thread) (i : ℕ) (o : Owner) (p : Phase) (u : Thread) :
    (L.pass t i o p).phase u = if u = t then p else L.phase u := by
  simp [pass, Function.update_apply]

@[simp] theorem pass_slot_of (L : Ledger) (t : Thread) (i : ℕ) (o : Owner) (p : Phase) :
    (L.pass t i o p).slot_of = L.slot_of := rfl

@[simp] theorem pass_invocation_of (L : Ledger) (t : Thread) (i : ℕ) (o : Owner) (p : Phase) :
    (L.pass t i o p).invocation_of = L.invocation_of := rfl

theorem Turn.writing (hL : L.Invariant) (h : L.Turn t i o p) (j k : ℕ) :
    (L.pass t i o p).owner j = .writing k ↔ (L.pass t i o p).phase (.dispatch k) = .holding j := by
  have hw := hL.writing
  cases h <;> simp only [pass_owner, pass_phase] <;> grind

theorem Turn.reading (hL : L.Invariant) (h : L.Turn t i o p) (j l : ℕ) :
    ((L.pass t i o p).owner j).loop = some l ↔
    (L.pass t i o p).phase (.receive l) = .holding j := by
  have hr := hL.reading
  cases h <;> simp only [pass_owner, pass_phase] <;> grind [Owner.loop]

theorem Turn.claimed (hL : L.Invariant) (h : L.Turn t i o p) (j k : ℕ)
    (hj : ((L.pass t i o p).owner j).call = some k) :
    ((L.pass t i o p).phase (.dispatch k)).slot = some j := by
  have hc := hL.claimed
  cases h <;> simp only [pass_owner, pass_phase] at hj ⊢ <;> grind [Owner.call, Phase.slot]

theorem Turn.handling (hL : L.Invariant) (h : L.Turn t i o p) (j n : ℕ) :
    ((L.pass t i o p).owner j).invocation = some n ↔
      L.slot_of n = some j ∧ ∀ c, L.invocation_of c = some n →
        ((L.pass t i o p).phase (.respond c)).Waiting := by
  have hh := hL.handling
  cases h <;> simp only [pass_owner, pass_phase] <;> grind [Owner.invocation, Phase.Waiting, Sole]

theorem Turn.done (hL : L.Invariant) (h : L.Turn t i o p) (j n k c : ℕ)
    (hj : (L.pass t i o p).owner j = .done n k c) :
    L.slot_of n = some j ∧ L.invocation_of c = some n ∧
      ¬ ((L.pass t i o p).phase (.respond c)).Waiting := by
  have hd := hL.done
  have hh := hL.handling
  cases h <;> simp only [pass_owner, pass_phase] at hj ⊢ <;>
    grind [Owner.invocation, Phase.Waiting, Sole]

/-- Passing a slot on keeps the invariant. -/
theorem Turn.invariant (hL : L.Invariant) (h : L.Turn t i o p) : (L.pass t i o p).Invariant :=
  ⟨h.writing hL, h.reading hL, h.claimed hL, h.handling hL, h.done hL⟩

end Turns

/-- A handler invocation begins. -/
theorem Invariant.invoke (hL : L.Invariant) {l n k i : ℕ} (h : L.owner i = .reading l k)
    (hn : L.slot_of n = none) (hreply : ∀ c, L.invocation_of c ≠ some n) :
    Invariant { L.pass (.receive l) i (.handling n k) (.released i) with
      slot_of := Function.update L.slot_of n (some i) } := by
  obtain ⟨hw, hr, hc, hh, hd⟩ := hL
  refine ⟨?_, ?_, ?_, ?_, ?_⟩
  · simp only [pass_owner, pass_phase]
    grind
  · simp only [pass_owner, pass_phase]
    grind [Owner.loop]
  · simp only [pass_owner, pass_phase]
    grind [Owner.call]
  · simp only [pass_owner, pass_phase, pass_invocation_of, Function.update_apply]
    grind [Owner.invocation]
  · simp only [pass_owner, pass_phase, pass_invocation_of, Function.update_apply]
    grind

/-- A thread goes on without passing a slot on. -/
theorem Invariant.follow (hL : L.Invariant) {t : Thread} {p : Phase} (h : (L.phase t).Follows p) :
    Invariant { L with phase := Function.update L.phase t p } := by
  have hholding : ∀ u i, Function.update L.phase t p u = .holding i ↔ L.phase u = .holding i := by
    intro u i
    by_cases hu : u = t
    · rw [hu, Function.update_self, h.holding_iff]
    · rw [Function.update_of_ne hu]
  have hslot : ∀ u, (Function.update L.phase t p u).slot = (L.phase u).slot := by
    intro u
    by_cases hu : u = t
    · rw [hu, Function.update_self, h.slot_eq]
    · rw [Function.update_of_ne hu]
  have hwaiting : ∀ u, (Function.update L.phase t p u).Waiting ↔ (L.phase u).Waiting := by
    intro u
    by_cases hu : u = t
    · rw [hu, Function.update_self, h.waiting_iff]
    · rw [Function.update_of_ne hu]
  refine ⟨fun i k => (hL.writing i k).trans (hholding _ i).symm,
    fun i l => (hL.reading i l).trans (hholding _ i).symm,
    fun i k hk => (hslot _).trans (hL.claimed i k hk), fun i n => ?_, fun i n k c hd => ?_⟩
  · simp only [hwaiting]
    exact hL.handling i n
  · obtain ⟨h1, h2, h3⟩ := hL.done i n k c hd
    exact ⟨h1, h2, fun hw => h3 ((hwaiting _).mp hw)⟩

/-- A `send_response` call begins. -/
theorem Invariant.reply (hL : L.Invariant) {c : ℕ} (n : ℕ) (hc : L.invocation_of c = none)
    (hidle : L.phase (.respond c) = .idle) :
    Invariant { L with invocation_of := Function.update L.invocation_of c (some n) } := by
  obtain ⟨hw, hr, hcl, hh, hd⟩ := hL
  have hold : ∀ m d, L.invocation_of d = some m →
      Function.update L.invocation_of c (some n) d = some m := by
    intro m d hd
    rw [Function.update_of_ne (fun heq => by rw [heq, hc] at hd; cases hd)]
    exact hd
  refine ⟨hw, hr, hcl, fun j m => (hh j m).trans (and_congr_right fun _ => ?_), fun j m k d h => ?_⟩
  · refine ⟨fun h d hd => ?_, fun h d hd => h d (hold m d hd)⟩
    by_cases hdc : d = c
    · subst hdc
      exact .inl hidle
    · simp only [Function.update_of_ne hdc] at hd
      exact h d hd
  · obtain ⟨h1, h2, h3⟩ := hd j m k d h
    exact ⟨h1, hold m d h2, h3⟩

/-- **Every step keeps owners and phases in agreement.** -/
theorem step_invariant (hL : L.Invariant) (h : L.Step L') : L'.Invariant := by
  cases h with
  | turn h => exact h.invariant hL
  | invoke h hn hreply => exact hL.invoke h hn hreply
  | follow h => exact hL.follow h
  | reply hc hidle _ => exact hL.reply _ hc hidle

/-- Nobody owns anything at the start. -/
theorem initial_invariant {L : Ledger} (howner : ∀ i, L.owner i = .free)
    (hphase : ∀ t, L.phase t = .idle) (hslot : ∀ n, L.slot_of n = none) : L.Invariant := by
  refine ⟨?_, ?_, ?_, ?_, ?_⟩ <;>
    simp [howner, hphase, hslot, Owner.loop, Owner.call, Owner.invocation]

end Ledger
end SlotBus
