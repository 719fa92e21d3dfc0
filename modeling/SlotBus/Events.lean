import SlotBus.Config
import SlotBus.Foundation.NamedObject
import SlotBus.Foundation.Service

/-!
# Named events

The request and the response event of a bus are `NamedEvent`s: Windows events, or POSIX named
semaphores.  Here they are built from the calls of the operating system, and any number of processes
create, open, signal, wait for and drop them at the same time.

A POSIX name stands for a semaphore until somebody unlinks it, and `create` unlinks the name first,
in case a process was killed and left a semaphore behind; so does the drop of an event that was
created.  A Windows name stands for an event as long as somebody has a handle to it.

* `NamedEvent.create`, `NamedEvent.open_`, `NamedEvent.signal`, `NamedEvent.wait_timeout`,
  `NamedEvent.drop`;
* `kernel_exec` — what the calls of the operating system do, and `Changes`, what they can change;
* `Os.service` — the processes, and `program_does`, what each of their calls does;
* `live_returned` — whoever uses an event got it from a call that returned it.
-/

namespace SlotBus

namespace Events

open AtomicProgram AtomicProgram.Program NamedObject

/-! ### The calls of the operating system -/

def NANOS_PER_SEC : ℤ := 1000000000

/-- `libc::timespec`. -/
structure Timespec where
  tv_sec : ℤ
  tv_nsec : ℤ
  deriving DecidableEq

def Timespec.nanos (ts : Timespec) : ℤ := ts.tv_sec * NANOS_PER_SEC + ts.tv_nsec

/-- What `sem_timedwait` takes for a time. -/
def Timespec.Valid (ts : Timespec) : Prop := 0 ≤ ts.tv_nsec ∧ ts.tv_nsec < NANOS_PER_SEC

instance (ts : Timespec) : Decidable ts.Valid := inferInstanceAs (Decidable (_ ∧ _))

/-- How a clock shows a time. -/
def Timespec.of_nanos (t : ℤ) : Timespec := ⟨t / NANOS_PER_SEC, t % NANOS_PER_SEC⟩

/-- The fields of a `NamedEvent`. -/
inductive NamedEvent where
  | windows (handle : ℕ)
  | unix (sem : ℕ) (name : String) (created : Bool)
  deriving DecidableEq

/-- The calls, and the return of a call to `create`, `open` or `wait_timeout`. -/
inductive Action where
  | sem_unlink (name : String)
  | sem_open (name : String) (o_creat : Bool)
  | sem_close (sem : ℕ)
  | sem_post (sem : ℕ)
  | sem_timedwait (sem : ℕ) (abs_timeout : Timespec)
  | sem_trywait (sem : ℕ)
  | clock_gettime
  | instant_now
  | sleep (ms : ℕ)
  | create_event (name : List Char)
  | open_event (name : List Char)
  | set_event (handle : ℕ)
  | wait_for_single_object (handle ms : ℕ)
  | close_handle (handle : ℕ)
  | opened (result : Except String NamedEvent)
  | waited (result : Option Bool)
  deriving DecidableEq

def Answer : Action → Type
  | .sem_open _ _ => Except String ℕ
  | .sem_post _ => Bool
  | .sem_timedwait _ _ => Bool
  | .sem_trywait _ => Bool
  | .clock_gettime => Timespec
  | .instant_now => ℕ
  | .create_event _ => Option ℕ
  | .open_event _ => Option ℕ
  | .wait_for_single_object _ _ => Bool
  | _ => Unit

/-- The signature of the calls. -/
abbrev os : Signature := ⟨Action, Answer⟩

section Calls

abbrev sem_unlink (name : String) : Program os Unit := perform (S := os) (.sem_unlink name)

abbrev sem_open (name : String) (o_creat : Bool) : Program os (Except String ℕ) :=
  perform (S := os) (.sem_open name o_creat)

abbrev sem_close (sem : ℕ) : Program os Unit := perform (S := os) (.sem_close sem)

abbrev sem_post (sem : ℕ) : Program os Bool := perform (S := os) (.sem_post sem)

abbrev sem_timedwait (sem : ℕ) (abs_timeout : Timespec) : Program os Bool :=
  perform (S := os) (.sem_timedwait sem abs_timeout)

abbrev sem_trywait (sem : ℕ) : Program os Bool := perform (S := os) (.sem_trywait sem)

abbrev clock_gettime : Program os Timespec := perform (S := os) .clock_gettime

abbrev instant_now : Program os ℕ := perform (S := os) .instant_now

abbrev sleep (ms : ℕ) : Program os Unit := perform (S := os) (.sleep ms)

abbrev create_event (name : List Char) : Program os (Option ℕ) :=
  perform (S := os) (.create_event name)

abbrev open_event (name : List Char) : Program os (Option ℕ) := perform (S := os) (.open_event name)

abbrev set_event (handle : ℕ) : Program os Unit := perform (S := os) (.set_event handle)

abbrev wait_for_single_object (handle ms : ℕ) : Program os Bool :=
  perform (S := os) (.wait_for_single_object handle ms)

abbrev close_handle (handle : ℕ) : Program os Unit := perform (S := os) (.close_handle handle)

abbrev opened (result : Except String NamedEvent) : Program os Unit :=
  perform (S := os) (.opened result)

abbrev waited (result : Option Bool) : Program os Unit := perform (S := os) (.waited result)

end Calls

/-! ### Named events -/

namespace NamedEvent

/-- The name with its terminator, as `CreateEventW` and `OpenEventW` get it. -/
def wide (name : String) : List Char := name.toList ++ [Char.ofNat 0]

/-- `CString::new`: a text that has no NUL itself. -/
def c_string (text : String) : Except String String :=
  match text.toList.span (· ≠ Char.ofNat 0) with
  | (_, []) => .ok text
  | (before, _ :: _) =>
      .error
        (s!"invalid name: nul byte found in provided data at position: " ++
        s!"{(String.ofList before).utf8ByteSize}")

/-- Create a new auto-reset named event; the error is the text of `SlotBusError::Event`. -/
def create (target : Target) (name : String) : ExceptT String (Program os) NamedEvent :=
  match target with
  | .windows => do
      match ← create_event (wide name) with
      | some handle => pure (.windows handle)
      | none => throw s!"CreateEventW failed for '{name}'"
  | .linux | .macos => do
      let cname ← ExceptT.mk (pure (c_string s!"/{name}"))
      -- a stale semaphore of a previous crash
      sem_unlink cname
      let result : Except String ℕ ← sem_open cname true
      match result with
      | .ok sem => pure (.unix sem cname true)
      | .error errno => throw s!"sem_open(create) failed for '{name}': {errno}"

/-- Open an existing named event. -/
def open_ (target : Target) (name : String) : ExceptT String (Program os) NamedEvent :=
  match target with
  | .windows => do
      match ← open_event (wide name) with
      | some handle => pure (.windows handle)
      | none => throw s!"OpenEventW failed for '{name}'"
  | .linux | .macos => do
      let cname ← ExceptT.mk (pure (c_string s!"/{name}"))
      let result : Except String ℕ ← sem_open cname false
      match result with
      | .ok sem => pure (.unix sem cname false)
      | .error _ => throw s!"sem_open(open) failed for '{name}'"

/-- Signal the event. -/
def signal : NamedEvent → Program os Unit
  | .windows handle => set_event handle
  | .unix sem _ _ => do
      let _ ← sem_post sem
      pure ()

/-- The absolute time of a timeout. -/
def deadline (ts : Timespec) (ms : ℕ) : Timespec :=
  let tv_sec := ts.tv_sec + (ms / 1000 : ℕ)
  let tv_nsec := ts.tv_nsec + (ms % 1000 : ℕ) * 1000000
  if NANOS_PER_SEC ≤ tv_nsec then ⟨tv_sec + 1, tv_nsec - NANOS_PER_SEC⟩ else ⟨tv_sec, tv_nsec⟩

/-- The polling loop of macOS, which has no `sem_timedwait`; `none` when `fuel` runs out. -/
def poll (sem deadline : ℕ) : ℕ → Program os (Option Bool)
  | 0 => pure none
  | fuel + 1 => do
      if ← sem_trywait sem then pure (some true)
      else
        let now ← instant_now
        if deadline ≤ now then pure (some false)
        else
          sleep 1
          poll sem deadline fuel

/-- Wait for the event with a timeout: whether it was signalled. -/
def wait_timeout (target : Target) (fuel : ℕ) (e : NamedEvent) (ms : ℕ) :
    Program os (Option Bool) :=
  match e, target with
  | .windows handle, _ => do
      let result ← wait_for_single_object handle ms
      pure (some result)
  | .unix sem _ _, .macos => do
      let now ← instant_now
      poll sem (now + ms * 1000000) fuel
  | .unix sem _ _, _ => do
      let ts ← clock_gettime
      let result ← sem_timedwait sem (deadline ts ms)
      pure (some result)

/-- `Drop`: the name of an event that was created goes with it. -/
def drop : NamedEvent → Program os Unit
  | .windows handle => close_handle handle
  | .unix sem name created => do
      sem_close sem
      if created then sem_unlink name

end NamedEvent

/-! ### The kernel -/

/-- An open handle of a Windows process. -/
structure OpenHandle where
  value : ℕ
  name : String
  object : ℕ
  deriving DecidableEq

/-- What the operating system keeps, and the events that the processes have.

`tokens` is what a semaphore counts, or whether an event is signalled; `wall` and `monotonic` are
the clocks, in nanoseconds. -/
structure Kernel where
  table : Table String
  tokens : ℕ → ℕ
  handles : List OpenHandle
  next_handle : ℕ
  wall : ℤ
  monotonic : ℕ
  live : List NamedEvent

/-- What the scheduler and the operating system decide about a call: whether it fails (a wait: is
interrupted or times out), the text of the error, how long it takes, and what the wall clock shows
then. -/
structure Choice where
  fault : Bool
  text : String
  elapsed : ℕ
  wall : ℤ

/-- What a semaphore can count up to. -/
def SEM_VALUE_MAX : Target → ℕ
  | .macos => 32767
  | _ => 2147483647

namespace Kernel

/-- Time passes. -/
def tick (κ : Kernel) (c : Choice) : Kernel :=
  { κ with wall := c.wall, monotonic := κ.monotonic + c.elapsed }

/-- The object of a name; a new one counts nothing. -/
def find (κ : Kernel) (name : String) (create : Bool) : Option (ℕ × Kernel) :=
  (κ.table.find name create).map fun x =>
    (x.1, { κ with
      table := x.2
      tokens := if (κ.table.object name).isSome then κ.tokens else Function.update κ.tokens x.1 0 })

def set_tokens (κ : Kernel) (s n : ℕ) : Kernel := { κ with tokens := Function.update κ.tokens s n }

/-- Take what was signalled, if anything was. -/
def take (κ : Kernel) (s : ℕ) : Option Kernel :=
  if 0 < κ.tokens s then some (κ.set_tokens s (κ.tokens s - 1)) else none

/-- A new handle to the object of a name. -/
def open_handle (κ : Kernel) (name : String) (create : Bool) : Option (ℕ × Kernel) :=
  (κ.find name create).map fun x =>
    (κ.next_handle, { x.2 with
      handles := ⟨κ.next_handle, name, x.1⟩ :: κ.handles
      next_handle := κ.next_handle + 1 })

/-- The open handle with this value. -/
def lookup (κ : Kernel) (handle : ℕ) : Option OpenHandle :=
  κ.handles.find? fun o => o.value = handle

/-- Close a handle; an object goes with its last handle. -/
def close (κ : Kernel) (handle : ℕ) : Kernel :=
  match κ.lookup handle with
  | none => κ
  | some o =>
      let rest := κ.handles.filter fun p => p.value ≠ handle
      { κ with
        handles := rest
        table := if rest.any fun p => p.object = o.object then κ.table else κ.table.unlink o.name }

end Kernel

/-! ### What the parts of the kernel do -/

namespace Kernel

variable {κ κ' : Kernel} {name : String} {create : Bool} {s handle : ℕ}

theorem find_cases (h : κ.find name create = some (s, κ')) :
    ∃ T, κ.table.find name create = some (s, T) ∧ κ' = { κ with
      table := T
      tokens := if (κ.table.object name).isSome then κ.tokens else
        Function.update κ.tokens s 0 } := by
  obtain ⟨⟨t, T⟩, hfind, heq⟩ := Option.map_eq_some_iff.mp h
  cases heq
  exact ⟨T, hfind, rfl⟩

theorem take_cases (h : κ.take s = some κ') :
    0 < κ.tokens s ∧ κ' = κ.set_tokens s (κ.tokens s - 1) := by
  obtain ⟨hpos, h⟩ := Option.ite_none_right_eq_some.mp h
  exact ⟨hpos, (Option.some.inj h).symm⟩

theorem open_handle_cases (h : κ.open_handle name create = some (handle, κ')) :
    ∃ s κ₁, κ.find name create = some (s, κ₁) ∧ handle = κ.next_handle ∧
      κ' = { κ₁ with handles := ⟨handle, name, s⟩ :: κ.handles, next_handle := handle + 1 } := by
  obtain ⟨⟨s, κ₁⟩, hfind, heq⟩ := Option.map_eq_some_iff.mp h
  cases heq
  exact ⟨s, κ₁, hfind, rfl, rfl⟩

theorem close_live : (κ.close handle).live = κ.live := by
  unfold close
  split <;> rfl

theorem close_monotonic : (κ.close handle).monotonic = κ.monotonic := by
  unfold close
  split <;> rfl

end Kernel

/-- What lies outside the repository: which names the operating system takes for the same, and how
many polls a waiting thread is given. -/
structure Os where
  target : Target
  resolve : String → String
  fuel : ℕ

namespace Os

variable (O : Os)

/-- The name that a Windows call reads: up to the terminator. -/
def read_wide (name : List Char) : String :=
  O.resolve (String.ofList (name.takeWhile (· ≠ Char.ofNat 0)))

/-- What a call does, after the time that it takes. -/
def kernel_effect (c : Choice) (κ : Kernel) : (a : Action) → Option (Answer a × Kernel)
  | .sem_unlink name => some ((), { κ with table := κ.table.unlink (O.resolve name) })
  | .sem_open name o_creat =>
      if c.fault then some (.error c.text, κ)
      else
        match κ.find (O.resolve name) o_creat with
        | some (sem, κ') => some (.ok sem, κ')
        | none => some (.error c.text, κ)
  | .sem_close _ => some ((), κ)
  | .sem_post sem =>
      if κ.tokens sem < SEM_VALUE_MAX O.target then some (true, κ.set_tokens sem (κ.tokens sem + 1))
      else some (false, κ)
  | .sem_timedwait sem abs_timeout =>
      if c.fault then some (false, κ)
      else
        match κ.take sem with
        | some κ' => some (true, κ')
        | none => if abs_timeout.Valid ∧ κ.wall < abs_timeout.nanos then none else some (false, κ)
  | .sem_trywait sem =>
      match κ.take sem with
      | some κ' => some (true, κ')
      | none => some (false, κ)
  | .clock_gettime => some (.of_nanos κ.wall, κ)
  | .instant_now => some (κ.monotonic, κ)
  | .sleep ms => if ms * 1000000 ≤ c.elapsed then some ((), κ) else none
  | .create_event name => some (if c.fault then (none, κ) else
      match κ.open_handle (O.read_wide name) true with
      | some (handle, κ') => (some handle, κ')
      | none => (none, κ))
  | .open_event name => some (if c.fault then (none, κ) else
      match κ.open_handle (O.read_wide name) false with
      | some (handle, κ') => (some handle, κ')
      | none => (none, κ))
  | .set_event handle =>
      match κ.lookup handle with
      | some o => some ((), κ.set_tokens o.object 1)
      | none => some ((), κ)
  | .wait_for_single_object handle _ =>
      match κ.lookup handle with
      | some o =>
          match κ.take o.object with
          | some κ' => some (true, κ')
          | none => if c.fault then some (false, κ) else none
      | none => some (false, κ)
  | .close_handle handle => some ((), κ.close handle)
  | .opened (.ok e) => some ((), { κ with live := e :: κ.live })
  | .opened (.error _) => some ((), κ)
  | .waited _ => some ((), κ)

/-- What a call does. -/
def kernel_exec (a : Action) (c : Choice) (κ : Kernel) : Option (Answer a × Kernel) :=
  O.kernel_effect c (κ.tick c) a

/-- The answer tells that nothing was changed. -/
def Idle : (a : Action) → Answer a → Prop
  | .sem_unlink _, _ | .close_handle _, _ => False
  | .sem_open _ _, r => ∃ text : String, r = (.error text : Except String ℕ)
  | .sem_post _, r | .sem_timedwait _ _, r | .sem_trywait _, r | .wait_for_single_object _ _, r =>
      r = false
  | .create_event _, r | .open_event _, r => r = none
  | .opened result, _ => ∃ text : String, result = .error text
  | _, _ => True

/-- How the calls change what the kernel keeps. -/
inductive Changes (κ : Kernel) : (a : Action) → Answer a → Kernel → Prop where
  | idle {a : Action} {r : Answer a} (h : Idle a r) : Changes κ a r κ
  | unlink (name : String) :
      Changes κ (.sem_unlink name) () { κ with table := κ.table.unlink (O.resolve name) }
  | find {name : String} {o_creat : Bool} {sem : ℕ} {κ' : Kernel}
      (h : κ.find (O.resolve name) o_creat = some (sem, κ')) :
      Changes κ (.sem_open name o_creat) (Except.ok sem : Except String ℕ) κ'
  | post {sem : ℕ} : Changes κ (.sem_post sem) true (κ.set_tokens sem (κ.tokens sem + 1))
  | timedwait {sem : ℕ} (t : Timespec) (h : 0 < κ.tokens sem) :
      Changes κ (.sem_timedwait sem t) true (κ.set_tokens sem (κ.tokens sem - 1))
  | trywait {sem : ℕ} (h : 0 < κ.tokens sem) :
      Changes κ (.sem_trywait sem) true (κ.set_tokens sem (κ.tokens sem - 1))
  | create_event {name : List Char} {handle : ℕ} {κ' : Kernel}
      (h : κ.open_handle (O.read_wide name) true = some (handle, κ')) :
      Changes κ (.create_event name) (some handle) κ'
  | open_event {name : List Char} {handle : ℕ} {κ' : Kernel}
      (h : κ.open_handle (O.read_wide name) false = some (handle, κ')) :
      Changes κ (.open_event name) (some handle) κ'
  | set_event {handle : ℕ} {o : OpenHandle} (h : κ.lookup handle = some o) :
      Changes κ (.set_event handle) () (κ.set_tokens o.object 1)
  | wait_for {handle ms : ℕ} {o : OpenHandle} (h : κ.lookup handle = some o)
      (hpos : 0 < κ.tokens o.object) :
      Changes κ (.wait_for_single_object handle ms) true
        (κ.set_tokens o.object (κ.tokens o.object - 1))
  | close (handle : ℕ) : Changes κ (.close_handle handle) () (κ.close handle)
  | opened (e : NamedEvent) : Changes κ (.opened (.ok e)) () { κ with live := e :: κ.live }

variable {O} in
/-- **What a call can do**, when time has passed. -/
theorem kernel_changes {a : Action} {c : Choice} {κ κ' : Kernel} {r : Answer a}
    (h : O.kernel_exec a c κ = some (r, κ')) : O.Changes (κ.tick c) a r κ' := by
  unfold kernel_exec at h
  generalize κ.tick c = κ at h ⊢
  cases a with
  | sem_unlink name =>
      cases h
      exact .unlink name
  | sem_open name o_creat =>
      simp only [kernel_effect] at h
      split at h
      · cases h
        exact .idle ⟨c.text, rfl⟩
      split at h
      · rename_i hfind
        cases h
        exact .find hfind
      · cases h
        exact .idle ⟨c.text, rfl⟩
  | sem_post sem =>
      simp only [kernel_effect] at h
      split at h
      · cases h
        exact .post
      · cases h
        exact .idle rfl
  | sem_timedwait sem t =>
      simp only [kernel_effect] at h
      split at h
      · cases h
        exact .idle rfl
      split at h
      · rename_i htake
        cases h
        obtain ⟨hpos, rfl⟩ := Kernel.take_cases htake
        exact .timedwait t hpos
      · obtain ⟨-, h⟩ := Option.ite_none_left_eq_some.mp h
        cases h
        exact .idle rfl
  | sem_trywait sem =>
      simp only [kernel_effect] at h
      split at h
      · rename_i htake
        cases h
        obtain ⟨hpos, rfl⟩ := Kernel.take_cases htake
        exact .trywait hpos
      · cases h
        exact .idle rfl
  | sleep ms =>
      obtain ⟨-, h⟩ := Option.ite_none_right_eq_some.mp h
      cases h
      exact .idle trivial
  | create_event name =>
      simp only [kernel_effect] at h
      split at h
      · cases h
        exact .idle rfl
      split at h
      · rename_i hopen
        cases h
        exact .create_event hopen
      · cases h
        exact .idle rfl
  | open_event name =>
      simp only [kernel_effect] at h
      split at h
      · cases h
        exact .idle rfl
      split at h
      · rename_i hopen
        cases h
        exact .open_event hopen
      · cases h
        exact .idle rfl
  | set_event handle =>
      simp only [kernel_effect] at h
      split at h
      · rename_i hlookup
        cases h
        exact .set_event hlookup
      · cases h
        exact .idle trivial
  | wait_for_single_object handle ms =>
      simp only [kernel_effect] at h
      split at h
      · rename_i hlookup
        split at h
        · rename_i htake
          cases h
          obtain ⟨hpos, rfl⟩ := Kernel.take_cases htake
          exact .wait_for hlookup hpos
        · obtain ⟨-, h⟩ := Option.ite_none_right_eq_some.mp h
          cases h
          exact .idle rfl
      · cases h
        exact .idle rfl
  | close_handle handle =>
      cases h
      exact .close handle
  | opened result =>
      cases result with
      | ok e =>
          cases h
          exact .opened e
      | error text =>
          cases h
          exact .idle ⟨text, rfl⟩
  | sem_close sem =>
      cases h
      exact .idle trivial
  | clock_gettime =>
      cases h
      exact .idle trivial
  | instant_now =>
      cases h
      exact .idle trivial
  | waited result =>
      cases h
      exact .idle trivial

/-- What the processes call. -/
inductive Call where
  | create (name : String)
  | open_ (name : String)
  | signal (e : NamedEvent)
  | wait (e : NamedEvent) (ms : ℕ)
  | drop (e : NamedEvent)
  deriving DecidableEq

/-- The programs of the calls. -/
def program : Call → Program os Unit
  | .create name => do
      let result ← (NamedEvent.create O.target name).run
      opened result
  | .open_ name => do
      let result ← (NamedEvent.open_ O.target name).run
      opened result
  | .signal e => e.signal
  | .wait e ms => do
      let result ← e.wait_timeout O.target O.fuel ms
      waited result
  | .drop e => e.drop

/-- An event can be used by who has it; dropping it takes it away. -/
def accept : Call → Kernel → Option Kernel
  | .create _, κ | .open_ _, κ => some κ
  | .signal e, κ | .wait e _, κ => if e ∈ κ.live then some κ else none
  | .drop e, κ => if e ∈ κ.live then some { κ with live := κ.live.erase e } else none

/-- The processes and the kernel. -/
def service : Service os Kernel Choice Call where
  exec := O.kernel_exec
  program := O.program
  accept := accept

/-! ### The calls, action by action -/

variable {O} {name c : String} {sem d ms : ℕ} {b : Bool}

theorem program_create_invalid {text : String} (hO : O.target ≠ .windows)
    (hc : NamedEvent.c_string s!"/{name}" = .error text) :
    O.program (.create name) = opened (.error text) := by
  simp only [program, NamedEvent.create]
  cases hT : O.target with
  | windows => exact absurd hT hO
  | linux =>
      simp only [hc]
      rfl
  | macos =>
      simp only [hc]
      rfl

theorem program_create_valid (hO : O.target ≠ .windows)
    (hc : NamedEvent.c_string s!"/{name}" = .ok c) :
    ∃ rest : Except String ℕ → Program os Unit,
      O.program (.create name) = .act (.sem_unlink c) (fun _ => .act (.sem_open c true) rest) ∧
      (∀ sem, rest (.ok sem) = opened (.ok (.unix sem c true))) ∧
      ∀ errno, ∃ text, rest (.error errno) = opened (.error text) := by
  simp only [program, NamedEvent.create]
  cases hT : O.target with
  | windows => exact absurd hT hO
  | linux =>
      simp only [hc]
      exact ⟨_, rfl, fun _ => rfl, fun _ => ⟨_, rfl⟩⟩
  | macos =>
      simp only [hc]
      exact ⟨_, rfl, fun _ => rfl, fun _ => ⟨_, rfl⟩⟩

theorem program_open_invalid {text : String} (hO : O.target ≠ .windows)
    (hc : NamedEvent.c_string s!"/{name}" = .error text) :
    O.program (.open_ name) = opened (.error text) := by
  simp only [program, NamedEvent.open_]
  cases hT : O.target with
  | windows => exact absurd hT hO
  | linux =>
      simp only [hc]
      rfl
  | macos =>
      simp only [hc]
      rfl

theorem program_open_valid (hO : O.target ≠ .windows)
    (hc : NamedEvent.c_string s!"/{name}" = .ok c) :
    ∃ rest : Except String ℕ → Program os Unit,
      O.program (.open_ name) = .act (.sem_open c false) rest ∧
      (∀ sem, rest (.ok sem) = opened (.ok (.unix sem c false))) ∧
      ∀ errno, ∃ text, rest (.error errno) = opened (.error text) := by
  simp only [program, NamedEvent.open_]
  cases hT : O.target with
  | windows => exact absurd hT hO
  | linux =>
      simp only [hc]
      exact ⟨_, rfl, fun _ => rfl, fun _ => ⟨_, rfl⟩⟩
  | macos =>
      simp only [hc]
      exact ⟨_, rfl, fun _ => rfl, fun _ => ⟨_, rfl⟩⟩

theorem program_create_windows (hO : O.target = .windows) :
    ∃ rest : Option ℕ → Program os Unit,
      O.program (.create name) = .act (.create_event (NamedEvent.wide name)) rest ∧
      (∀ handle, rest (some handle) = opened (.ok (.windows handle))) ∧ ∃ text,
        rest none = opened (.error text) := by
  simp only [program, NamedEvent.create, hO]
  exact ⟨_, rfl, fun _ => rfl, _, rfl⟩

theorem program_open_windows (hO : O.target = .windows) :
    ∃ rest : Option ℕ → Program os Unit,
      O.program (.open_ name) = .act (.open_event (NamedEvent.wide name)) rest ∧
      (∀ handle, rest (some handle) = opened (.ok (.windows handle))) ∧ ∃ text,
        rest none = opened (.error text) := by
  simp only [program, NamedEvent.open_, hO]
  exact ⟨_, rfl, fun _ => rfl, _, rfl⟩

/-- A wait on macOS polls, and on Linux the kernel waits. -/
theorem program_wait_macos (hO : O.target = .macos) : O.program (.wait (.unix sem c b) ms) =
    .act .instant_now fun now : ℕ => NamedEvent.poll sem (now + ms * 1000000) O.fuel >>=
      fun result => waited result := by
  simp only [program, NamedEvent.wait_timeout, hO]
  rfl

theorem program_wait_unix (hO : O.target ≠ .macos) : O.program (.wait (.unix sem c b) ms) =
    .act .clock_gettime fun ts :
      Timespec => .act (.sem_timedwait sem (NamedEvent.deadline ts ms)) fun result : Bool =>
      waited (some result) := by
  simp only [program, NamedEvent.wait_timeout]
  cases hT : O.target with
  | macos => exact absurd hT hO
  | linux => rfl
  | windows => rfl

/-- One round of the polling loop. -/
theorem poll_succ (n : ℕ) : NamedEvent.poll sem d (n + 1) =
    .act (.sem_trywait sem) fun taken : Bool => if taken then .done (some true) else
      .act .instant_now fun now : ℕ => if d ≤ now then .done (some false) else
        .act (.sleep 1) fun _ => NamedEvent.poll sem d n := rfl

variable (O)

/-- What a call can do, by the system that it is made for. -/
inductive Does : Call → Action → Prop where
  | unlink {name c : String} (hO : O.target ≠ .windows)
      (hc : NamedEvent.c_string s!"/{name}" = .ok c) :
      Does (.create name) (.sem_unlink c)
  | create {name c : String} (hO : O.target ≠ .windows)
      (hc : NamedEvent.c_string s!"/{name}" = .ok c) :
      Does (.create name) (.sem_open c true)
  | open_ {name c : String} (hO : O.target ≠ .windows)
      (hc : NamedEvent.c_string s!"/{name}" = .ok c) :
      Does (.open_ name) (.sem_open c false)
  | created {name c : String} (hO : O.target ≠ .windows)
      (hc : NamedEvent.c_string s!"/{name}" = .ok c) (sem : ℕ) :
      Does (.create name) (.opened (.ok (.unix sem c true)))
  | opened {name c : String} (hO : O.target ≠ .windows)
      (hc : NamedEvent.c_string s!"/{name}" = .ok c) (sem : ℕ) :
      Does (.open_ name) (.opened (.ok (.unix sem c false)))
  | create_event {name : String} (hO : O.target = .windows) :
      Does (.create name) (.create_event (NamedEvent.wide name))
  | open_event {name : String} (hO : O.target = .windows) :
      Does (.open_ name) (.open_event (NamedEvent.wide name))
  | created_event {name : String} (hO : O.target = .windows) (handle : ℕ) :
      Does (.create name) (.opened (.ok (.windows handle)))
  | opened_event {name : String} (hO : O.target = .windows) (handle : ℕ) :
      Does (.open_ name) (.opened (.ok (.windows handle)))
  | not_created {name : String} (error : String) : Does (.create name) (.opened (.error error))
  | not_opened {name : String} (error : String) : Does (.open_ name) (.opened (.error error))
  | post {sem : ℕ} {c : String} {b : Bool} : Does (.signal (.unix sem c b)) (.sem_post sem)
  | set {handle : ℕ} : Does (.signal (.windows handle)) (.set_event handle)
  | timedwait {sem ms : ℕ} {c : String} {b : Bool} (t : Timespec) :
      Does (.wait (.unix sem c b) ms) (.sem_timedwait sem t)
  | trywait {sem ms : ℕ} {c : String} {b : Bool} :
      Does (.wait (.unix sem c b) ms) (.sem_trywait sem)
  | clock {e : NamedEvent} {ms : ℕ} : Does (.wait e ms) .clock_gettime
  | instant {e : NamedEvent} {ms : ℕ} : Does (.wait e ms) .instant_now
  | sleep {e : NamedEvent} {ms : ℕ} : Does (.wait e ms) (.sleep 1)
  | wait_for {handle ms : ℕ} : Does (.wait (.windows handle) ms) (.wait_for_single_object handle ms)
  | waited {e : NamedEvent} {ms : ℕ} (result : Option Bool) : Does (.wait e ms) (.waited result)
  | close {sem : ℕ} {c : String} {b : Bool} : Does (.drop (.unix sem c b)) (.sem_close sem)
  | take_away {sem : ℕ} {c : String} : Does (.drop (.unix sem c true)) (.sem_unlink c)
  | close_handle {handle : ℕ} : Does (.drop (.windows handle)) (.close_handle handle)

variable {O}

theorem poll_does (n : ℕ) :
    (NamedEvent.poll sem d n).Confined (O.Does (.wait (.unix sem c b) ms)) := by
  induction n with
  | zero => trivial
  | succ n ih =>
      rw [poll_succ]
      refine ⟨.trywait, fun taken : Bool => ?_⟩
      cases taken with
      | true => trivial
      | false =>
          refine ⟨.instant, fun now : ℕ => ?_⟩
          by_cases hd : d ≤ now
          · simp only [if_pos hd]
            trivial
          · simp only [if_neg hd]
            exact ⟨.sleep, fun _ => ih⟩

/-- **What the program of a call does.** -/
theorem program_does (call : Call) : (O.program call).Confined (O.Does call) := by
  cases call with
  | create name =>
      by_cases hO : O.target = .windows
      · obtain ⟨rest, hprogram, hok, text, herror⟩ := @program_create_windows O name hO
        rw [hprogram]
        refine ⟨.create_event hO, fun r : Option ℕ => ?_⟩
        cases r with
        | some handle => exact hok handle ▸ ⟨.created_event hO handle, fun _ => trivial⟩
        | none => exact herror ▸ ⟨.not_created text, fun _ => trivial⟩
      · cases hc : NamedEvent.c_string s!"/{name}" with
        | error text =>
            rw [program_create_invalid hO hc]
            exact ⟨.not_created text, fun _ => trivial⟩
        | ok c =>
            obtain ⟨rest, hprogram, hok, herror⟩ := program_create_valid hO hc
            rw [hprogram]
            refine ⟨.unlink hO hc, fun _ => ⟨.create hO hc, fun r : Except String ℕ => ?_⟩⟩
            cases r with
            | ok sem => exact hok sem ▸ ⟨.created hO hc sem, fun _ => trivial⟩
            | error errno =>
                obtain ⟨text, htext⟩ := herror errno
                exact htext ▸ ⟨.not_created text, fun _ => trivial⟩
  | open_ name =>
      by_cases hO : O.target = .windows
      · obtain ⟨rest, hprogram, hok, text, herror⟩ := @program_open_windows O name hO
        rw [hprogram]
        refine ⟨.open_event hO, fun r : Option ℕ => ?_⟩
        cases r with
        | some handle => exact hok handle ▸ ⟨.opened_event hO handle, fun _ => trivial⟩
        | none => exact herror ▸ ⟨.not_opened text, fun _ => trivial⟩
      · cases hc : NamedEvent.c_string s!"/{name}" with
        | error text =>
            rw [program_open_invalid hO hc]
            exact ⟨.not_opened text, fun _ => trivial⟩
        | ok c =>
            obtain ⟨rest, hprogram, hok, herror⟩ := program_open_valid hO hc
            rw [hprogram]
            refine ⟨.open_ hO hc, fun r : Except String ℕ => ?_⟩
            cases r with
            | ok sem => exact hok sem ▸ ⟨.opened hO hc sem, fun _ => trivial⟩
            | error errno =>
                obtain ⟨text, htext⟩ := herror errno
                exact htext ▸ ⟨.not_opened text, fun _ => trivial⟩
  | signal e =>
      cases e with
      | windows handle => exact ⟨.set, fun _ => trivial⟩
      | unix sem c b => exact ⟨.post, fun _ => trivial⟩
  | wait e ms =>
      cases e with
      | windows handle => exact ⟨.wait_for, fun r => ⟨.waited (some r), fun _ => trivial⟩⟩
      | unix sem c b =>
          by_cases hO : O.target = .macos
          · rw [program_wait_macos hO]
            refine ⟨.instant, fun now => Confined.bind (poll_does O.fuel) fun result => ?_⟩
            exact ⟨.waited result, fun _ => trivial⟩
          · rw [program_wait_unix hO]
            exact ⟨.clock, fun ts => ⟨.timedwait _, fun result => ⟨.waited _, fun _ => trivial⟩⟩⟩
  | drop e =>
      cases e with
      | windows handle => exact ⟨.close_handle, fun _ => trivial⟩
      | unix sem c b =>
          cases b with
          | true => exact ⟨.close, fun _ => ⟨.take_away, fun _ => trivial⟩⟩
          | false => exact ⟨.close, fun _ => trivial⟩

/-! ### What the processes have done -/

/-- The event that a call uses. -/
def Call.event : Call → Option NamedEvent
  | .create _ | .open_ _ => none
  | .signal e | .wait e _ | .drop e => some e

/-- Call `k` has returned this event. -/
def Returned (k : ℕ) (e : NamedEvent) (log : List (Performed os)) : Prop :=
  ⟨k, .opened (.ok e), ()⟩ ∈ log

variable {u : Kernel} {σ : Configuration os ℕ (Session os Kernel Call)}

/-- **What is logged of a call** is what it can do. -/
theorem logged_does (h : O.service.Reaches u σ) {x : Performed os} (hx : x ∈ σ.state.log) :
    ∃ call, σ.state.calls[x.call]? = some call ∧ O.Does call x.action := by
  obtain ⟨call, hcall, hpast⟩ := h.logged hx
  exact ⟨call, hcall, (hpast.confined (program_does call)).1 x (mem_deeds.mpr ⟨hx, rfl⟩)⟩

/-- What a call does next is what it can do. -/
theorem next_does (h : O.service.Reaches u σ) {k : ℕ} {a : Action}
    {rest : Answer a → Program os Unit} (hp : σ.program k = .act a rest) :
    ∃ call, σ.state.calls[k]? = some call ∧ O.Does call a := by
  obtain ⟨call, hcall, hpast⟩ := h.acting hp
  exact ⟨call, hcall, (hpast.confined (program_does call)).2.1⟩

/-- A program that only says what came out, before and after. -/
theorem past_returned {k : ℕ} {result : Except String NamedEvent} {done : List (Performed os)}
    {q : Program os Unit} (h : Past k (opened result) done q) :
    (done = [] ∧ q = opened result) ∨ (done = [⟨k, .opened result, ()⟩] ∧ q = .done ()) := by
  obtain ⟨rfl, rfl⟩ | ⟨r, later, rfl, hlater⟩ := h.act_cases
  · exact .inl ⟨rfl, rfl⟩
  · obtain ⟨rfl, rfl⟩ := hlater.done_cases
    exact .inr ⟨rfl, rfl⟩

theorem accept_cases {call : Call} {κ κ' : Kernel} (h : accept call κ = some κ') :
    (∀ e, call.event = some e → e ∈ κ.live) ∧ ∃ live, live ⊆ κ.live ∧
      κ' = { κ with live := live } := by
  cases call with
  | create name =>
      cases h
      exact ⟨fun _ he => (by cases he), κ.live, fun _ he => he, rfl⟩
  | open_ name =>
      cases h
      exact ⟨fun _ he => (by cases he), κ.live, fun _ he => he, rfl⟩
  | signal e =>
      obtain ⟨he, h⟩ := Option.ite_none_right_eq_some.mp h
      cases h
      exact ⟨fun f hf => Option.some.inj hf ▸ he, κ.live, fun _ he => he, rfl⟩
  | wait e ms =>
      obtain ⟨he, h⟩ := Option.ite_none_right_eq_some.mp h
      cases h
      exact ⟨fun f hf => Option.some.inj hf ▸ he, κ.live, fun _ he => he, rfl⟩
  | drop e =>
      obtain ⟨he, h⟩ := Option.ite_none_right_eq_some.mp h
      cases h
      exact ⟨fun f hf => Option.some.inj hf ▸ he, κ.live.erase e, List.erase_subset, rfl⟩

/-- The events that the processes have: those they had, or one more that was returned. -/
theorem Changes.live {κ κ' : Kernel} {a : Action} {r : Answer a} (h : O.Changes κ a r κ') :
    κ'.live = κ.live ∨ ∃ e, a = .opened (.ok e) ∧ κ'.live = e :: κ.live := by
  cases h with
  | idle _ => exact .inl rfl
  | unlink name => exact .inl rfl
  | find hfind =>
      obtain ⟨T, -, rfl⟩ := Kernel.find_cases hfind
      exact .inl rfl
  | post => exact .inl rfl
  | timedwait t _ => exact .inl rfl
  | trywait _ => exact .inl rfl
  | create_event hopen =>
      obtain ⟨s, κ₁, hfind, -, rfl⟩ := Kernel.open_handle_cases hopen
      obtain ⟨T, -, rfl⟩ := Kernel.find_cases hfind
      exact .inl rfl
  | open_event hopen =>
      obtain ⟨s, κ₁, hfind, -, rfl⟩ := Kernel.open_handle_cases hopen
      obtain ⟨T, -, rfl⟩ := Kernel.find_cases hfind
      exact .inl rfl
  | set_event _ => exact .inl rfl
  | wait_for _ _ => exact .inl rfl
  | close handle => exact .inl Kernel.close_live
  | opened e => exact .inr ⟨e, rfl, rfl⟩

/-- **Whoever uses an event got it** from a call that returned it. -/
theorem live_returned (hu : u.live = []) (h : O.service.Reaches u σ) :
    (∀ e ∈ σ.state.state.live, ∃ j, Returned j e σ.state.log) ∧
      ∀ call ∈ σ.state.calls, ∀ e, call.event = some e → ∃ j, Returned j e σ.state.log := by
  refine h.induct (P := fun τ => (∀ e ∈ τ.state.state.live, ∃ j, Returned j e τ.state.log) ∧
      ∀ call ∈ τ.state.calls, ∀ e, call.event = some e → ∃ j, Returned j e τ.state.log) ?_ ?_ ?_
  · show (∀ e ∈ u.live, ∃ j, Returned j e []) ∧ ∀ call ∈ [], ∀ e, Call.event call = some e →
        ∃ j, Returned j e []
    rw [hu]
    exact ⟨fun e he => absurd he List.not_mem_nil, fun call hcall => absurd hcall List.not_mem_nil⟩
  · intro τ k a rest ch r v _ ih _ hx
    have hkeep : ∀ {e}, (∃ j, Returned j e τ.state.log) →
        ∃ j, Returned j e (⟨k, a, r⟩ :: τ.state.log) := by
      rintro e ⟨j, hj⟩
      exact ⟨j, List.mem_cons_of_mem _ hj⟩
    refine ⟨fun e he => ?_, fun call hcall e he => hkeep (ih.2 call hcall e he)⟩
    rcases (kernel_changes hx).live with hlive | ⟨f, rfl, hlive⟩
    · exact hkeep (ih.1 e (hlive ▸ he))
    · rcases List.mem_cons.mp (hlive ▸ he) with rfl | he
      · exact ⟨k, List.mem_cons_self⟩
      · exact hkeep (ih.1 e he)
  · intro τ call v _ ih _ haccept
    obtain ⟨hevent, live, hlive, rfl⟩ := accept_cases haccept
    refine ⟨fun e he => ih.1 e (hlive he), fun other hother e he => ?_⟩
    rcases List.mem_append.mp hother with hold | hnew
    · exact ih.2 other hold e he
    · cases List.mem_singleton.mp hnew
      exact ih.1 e (hevent e he)

/-! ### Runs that can be computed -/

/-- A machine on which nobody has done anything. -/
def booted : Kernel where
  table := ⟨fun _ => none, 0⟩
  tokens _ := 0
  handles := []
  next_handle := 0
  wall := 0
  monotonic := 0
  live := []

/-- The call succeeds after a millisecond. -/
def prompt : Choice := ⟨false, "", 1000000, 0⟩

variable (O) in
/-- The run with these scheduling decisions. -/
def run (moves : List (Move ℕ Choice Call)) :
    Option (Configuration os ℕ (Session os Kernel Call)) :=
  O.service.system.play Service.anytime moves (Service.opening booted)

theorem reaches_run {moves : List (Move ℕ Choice Call)} (h : (O.run moves).isSome) :
    O.service.Reaches booted ((O.run moves).get h) :=
  reachable_of_play (Option.some_get h).symm

/-- What can be looked up in a log: an action whose answer says nothing. -/
theorem logged_of_exists {k : ℕ} {a : Action} {r : Answer a} (hr : ∀ r', r' = r)
    {log : List (Performed os)} (h : ∃ x ∈ log, x.call = k ∧ x.action = a) : ⟨k, a, r⟩ ∈ log := by
  obtain ⟨⟨j, b, s⟩, hx, rfl, rfl⟩ := h
  exact hr s ▸ hx

end Os

end Events

end SlotBus
