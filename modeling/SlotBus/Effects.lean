import SlotBus.Layout
import SlotBus.Transport

/-!
# What an action changes

For each component of the world, the actions that can change it.  The rest of the development uses
these lemmas for everything an action leaves alone; the definition of `effect` is opened again only
where the outcome of one particular action matters.
-/

namespace SlotBus

open ByteMemory AtomicProgram

/-- The slot whose status word an action may store to. -/
def Action.status_slot : Action → Option ℕ
  | .compare_exchange i _ _ => some i
  | .store i _ => some i
  | _ => none

/-- The addresses a plain write of the mapping touches. -/
def Action.written : Action → Set ℕ
  | .write a bytes => span a bytes.length
  | _ => ∅

/-- An overflow region that some thread has created during the run. -/
def Created_by (t : Thread) (r : OverflowRegion) (log : List Entry) : Prop :=
  (⟨t, .shm_create r.name r.len, (.region r : Created)⟩ : Entry) ∈ log

/-- The actions of one thread, the latest first. -/
def history (t : Thread) (log : List Entry) : List Entry := log.filter fun e => e.thread = t

@[simp] theorem history_cons_self (t : Thread) (a : Action) (r : Answer a) (log : List Entry) :
    history t (⟨t, a, r⟩ :: log) = ⟨t, a, r⟩ :: history t log := by
  simp [history]

@[simp] theorem history_cons_of_ne {t u : Thread} (h : u ≠ t) (a : Action) (r : Answer a)
    (log : List Entry) : history t (⟨u, a, r⟩ :: log) = history t log := by
  simp [history, h]

/-- The overflow region that was created last. -/
def latest_region : List Entry → Option OverflowRegion
  | [] => none
  | ⟨_, .shm_create _ _, .region r⟩ :: _ => some r
  | _ :: log => latest_region log

/-- Only a create can change which region is the latest. -/
theorem latest_region_cons {t u : Thread} {a : Action} {r : Answer a} {log : List Entry}
    (h : ∀ n size, a ≠ .shm_create n size) :
    latest_region (history t (⟨u, a, r⟩ :: log)) = latest_region (history t log) := by
  by_cases hu : u = t
  · subst hu
    rw [history_cons_self]
    cases a <;> first | rfl | exact absurd rfl (h _ _)
  · rw [history_cons_of_ne hu]

section Changes

variable {target : Target} {t : Thread} {a : Action} {c : Choice} {w w' : World} {r : Answer a}

theorem exec_iff : (machine target).exec t a c w = some (r, w') ↔
    ∃ v, effect target c w a = some (r, v) ∧ w' = { v with log := ⟨t, a, r⟩ :: v.log } := by
  simp only [machine, Option.map_eq_some_iff, Prod.exists, Prod.mk.injEq]
  constructor
  · rintro ⟨r', v, h, rfl, rfl⟩
    exact ⟨v, h, rfl⟩
  · rintro ⟨v, h, rfl⟩
    exact ⟨r, v, h, rfl, rfl⟩

theorem drop_region_names (w : World) (r : OverflowRegion) (n : String) :
    (w.drop_region r).names n = w.names n ∨
      (w.drop_region r).names n = none ∧ n = r.name ∧ w.names n = some r.segment := by
  unfold World.drop_region
  split
  · by_cases hn : n = r.name
    · subst hn
      exact .inr ⟨by simp, rfl, by assumption⟩
    · exact .inl (by simp [hn])
  · exact .inl rfl

theorem drop_region_eq (w : World) (r : OverflowRegion) :
    w.drop_region r = { w with names := (w.drop_region r).names } := by
  unfold World.drop_region
  split <;> rfl

theorem drop_option_eq (w : World) (o : Option OverflowRegion) :
    w.drop_option o = { w with names := (w.drop_option o).names } := by
  cases o with
  | none => rfl
  | some r => exact drop_region_eq w r

/-- A name disappears only with the region that held it. -/
theorem drop_option_names (w : World) (o : Option OverflowRegion) (n : String) :
    (w.drop_option o).names n = w.names n ∨
      (w.drop_option o).names n = none ∧
        ∃ r, o = some r ∧ n = r.name ∧ w.names n = some r.segment := by
  cases o with
  | none => exact .inl rfl
  | some r =>
      rcases drop_region_names w r n with h | ⟨h, hn, hs⟩
      · exact .inl h
      · exact .inr ⟨h, r, rfl, hn, hs⟩

/-- An action takes a name away from the region it stands for. -/
inductive Releases (w : World) (n : String) : Action → Prop where
  | reclaim {s : ℕ} (hs : w.names n = some s) (horphan : (w.segments s).orphan = true) :
      Releases w n (.shm_reclaim n)
  | drop {r : OverflowRegion} (hn : n = r.name) (hs : w.names n = some r.segment) :
      Releases w n (.shm_drop r)
  | remove {side : Side} {i : ℕ} {r : OverflowRegion} (hmap : w.overflow_regions side i = some r)
      (hn : n = r.name) (hs : w.names n = some r.segment) : Releases w n (.overflow_remove side i)
  | insert {side : Side} {i : ℕ} {r new : OverflowRegion}
      (hmap : w.overflow_regions side i = some r) (hn : n = r.name)
      (hs : w.names n = some r.segment) : Releases w n (.overflow_insert side i new)

/-- **What an action can change**, component by component. -/
structure Changes (t : Thread) (a : Action) (r : Answer a) (w w' : World) : Prop where
  log : w'.log = ⟨t, a, r⟩ :: w.log
  mem : ∀ x, x ∉ a.written → (∀ i, a.status_slot = some i → x ∉ status_word i) → w'.mem x = w.mem x
  names : ∀ n, w'.names n = w.names n ∨ (w'.names n = none ∧ Releases w n a) ∨
    ∃ size, a = .shm_create n size ∧ w.names n = none ∧ w'.names n = some w.next_segment
  segments : ∀ s, w'.segments s = w.segments s ∨
    (s = w.next_segment ∧ ∃ n size, a = .shm_create n size) ∨
    ∃ r data, a = .shm_write r data ∧ s = r.segment ∧ w'.segments s = (w.segments s).fill data
  next_segment : w'.next_segment = w.next_segment ∨
    (w'.next_segment = w.next_segment + 1 ∧ ∃ n size, a = .shm_create n size)
  overflow_regions : ∀ side i, w'.overflow_regions side i = w.overflow_regions side i ∨
    (a = .overflow_remove side i ∧ w'.overflow_regions side i = none) ∨
    ∃ r, a = .overflow_insert side i r ∧ w'.overflow_regions side i = some r
  pending : ∀ id, w'.pending id = w.pending id ∨
    (a = .pending_remove id ∧ w'.pending id = none) ∨
    ∃ tx, a = .pending_insert id tx ∧ w'.pending id = some tx
  resolved : ∀ tx, w'.resolved tx = w.resolved tx ∨
    ∃ response, a = .send tx response ∧ w'.resolved tx = some response
  event : ∀ e, w'.event e = w.event e ∨
    (a = .signal e ∧ 0 < w'.event e) ∨ (a = .wait e ∧ w'.event e + 1 = w.event e)
  is_running : w'.is_running = w.is_running
  calls : w'.calls = w.calls
  replies : w'.replies = w.replies
  invocations : w'.invocations = w.invocations ∨
    ∃ worker i request, a = .handle worker i request ∧
      w'.invocations = w.invocations ++ [⟨worker, i, request⟩]

theorem status_write_outside {w : World} {i v x : ℕ} (h : x ∉ status_word i) :
    (w.set_status i v).mem x = w.mem x := by
  apply write_outside
  rwa [encodeLE_length]

/-- An action that only reads. -/
theorem Changes.same (t : Thread) (a : Action) (r : Answer a) (w : World) :
    Changes t a r w { w with log := ⟨t, a, r⟩ :: w.log } where
  log := rfl
  mem _ _ _ := rfl
  names _ := .inl rfl
  segments _ := .inl rfl
  next_segment := .inl rfl
  overflow_regions _ _ := .inl rfl
  pending _ := .inl rfl
  resolved _ := .inl rfl
  event _ := .inl rfl
  is_running := rfl
  calls := rfl
  replies := rfl
  invocations := .inl rfl

/-- An action that changes the mapping only. -/
theorem Changes.memory {t : Thread} {a : Action} {r : Answer a} {w : World} {m : Memory}
    (h : ∀ x, x ∉ a.written → (∀ i, a.status_slot = some i → x ∉ status_word i) → m x = w.mem x) :
    Changes t a r w { w with mem := m, log := ⟨t, a, r⟩ :: w.log } :=
  { Changes.same t a r w with mem := h }

/-- An action that changes the named regions only. -/
theorem Changes.regions {t : Thread} {a : Action} {r : Answer a} {w : World}
    {names : String → Option ℕ} {segments : ℕ → Segment} {next : ℕ}
    (hnames : ∀ n, names n = w.names n ∨ (names n = none ∧ Releases w n a) ∨
      ∃ size, a = .shm_create n size ∧ w.names n = none ∧ names n = some w.next_segment)
    (hsegments : ∀ s, segments s = w.segments s ∨
      (s = w.next_segment ∧ ∃ n size, a = .shm_create n size) ∨
      ∃ r data, a = .shm_write r data ∧ s = r.segment ∧ segments s = (w.segments s).fill data)
    (hnext : next = w.next_segment ∨
    (next = w.next_segment + 1 ∧ ∃ n size, a = .shm_create n size)) :
    Changes t a r w { w with names := names, segments := segments, next_segment := next,
                             log := ⟨t, a, r⟩ :: w.log } :=
  { Changes.same t a r w with names := hnames, segments := hsegments, next_segment := hnext }

/-- An action that replaces an entry of an overflow map, and releases the old one. -/
theorem Changes.overflow {t : Thread} {a : Action} {r : Answer a} {w : World} {side : Side} {i : ℕ}
    {o : Option OverflowRegion}
    (hrel : ∀ n q, w.overflow_regions side i = some q → n = q.name → w.names n = some q.segment →
      Releases w n a)
    (hmap : (a = .overflow_remove side i ∧ o = none) ∨
      ∃ q, a = .overflow_insert side i q ∧ o = some q) :
    Changes t a r w { (w.drop_option (w.overflow_regions side i)).set_overflow side i o with
      log := ⟨t, a, r⟩ ::
        ((w.drop_option (w.overflow_regions side i)).set_overflow side i o).log } := by
  rw [World.set_overflow, drop_option_eq]
  refine { Changes.same t a r w with names := fun n => ?_, overflow_regions := fun side' j => ?_ }
  · rcases drop_option_names w (w.overflow_regions side i) n with h | ⟨h, q, hq, hn, hs⟩
    · exact .inl h
    · exact .inr (.inl ⟨h, hrel n q hq hn hs⟩)
  · by_cases hside : side' = side
    · subst hside
      by_cases hj : j = i
      · subst hj
        right
        simpa using hmap
      · exact .inl (by simp [hj])
    · exact .inl (by simp [hside])

theorem exec_changes (h : (machine target).exec t a c w = some (r, w')) : Changes t a r w w' := by
  obtain ⟨v, hv, rfl⟩ := exec_iff.mp h
  cases a with
  | load i =>
      obtain ⟨rfl, rfl⟩ := Prod.mk.inj (Option.some.inj hv)
      exact .same _ _ _ _
  | compare_exchange i expected new =>
      simp only [effect] at hv
      split at hv <;> obtain ⟨rfl, rfl⟩ := Prod.mk.inj (Option.some.inj hv)
      · exact .memory fun x _ hx => status_write_outside (hx i rfl)
      · exact .same _ _ _ _
  | store i value =>
      obtain ⟨rfl, rfl⟩ := Prod.mk.inj (Option.some.inj hv)
      exact .memory fun x _ hx => status_write_outside (hx i rfl)
  | write x bytes =>
      obtain ⟨rfl, rfl⟩ := Prod.mk.inj (Option.some.inj hv)
      exact .memory fun y hy _ => write_outside hy
  | read x len =>
      obtain ⟨rfl, rfl⟩ := Prod.mk.inj (Option.some.inj hv)
      exact .same _ _ _ _
  | shm_create name size =>
      simp only [effect] at hv
      split at hv
      · obtain ⟨rfl, rfl⟩ := Prod.mk.inj (Option.some.inj hv)
        exact .same _ _ _ _
      split at hv <;> obtain ⟨rfl, rfl⟩ := Prod.mk.inj (Option.some.inj hv)
      · exact .same _ _ _ _
      · rename_i hfree
        refine .regions (fun n => ?_) (fun s => ?_) (.inr ⟨rfl, name, size, rfl⟩)
        · by_cases hn : n = name
          · subst hn
            exact .inr (.inr ⟨size, rfl, by simpa using hfree, by simp⟩)
          · exact .inl (by simp [hn])
        · by_cases hs : s = w.next_segment
          · exact .inr (.inl ⟨hs, name, size, rfl⟩)
          · exact .inl (by simp [hs])
  | shm_reclaim name =>
      simp only [effect] at hv
      split at hv
      · rename_i s hs
        split at hv <;> obtain ⟨rfl, rfl⟩ := Prod.mk.inj (Option.some.inj hv)
        · rename_i horphan
          simp only [Bool.and_eq_true] at horphan
          refine .regions (fun n => ?_) (fun _ => .inl rfl) (.inl rfl)
          by_cases hn : n = name
          · subst hn
            exact .inr (.inl ⟨by simp, .reclaim hs horphan.1⟩)
          · exact .inl (by simp [hn])
        · exact .same _ _ _ _
      · obtain ⟨rfl, rfl⟩ := Prod.mk.inj (Option.some.inj hv)
        exact .same _ _ _ _
  | shm_write q data =>
      obtain ⟨rfl, rfl⟩ := Prod.mk.inj (Option.some.inj hv)
      refine .regions (fun _ => .inl rfl) (fun s => ?_) (.inl rfl)
      by_cases hs : s = q.segment
      · exact .inr (.inr ⟨q, data, rfl, hs, by simp [hs]⟩)
      · exact .inl (by simp [hs])
  | shm_open name =>
      simp only [effect] at hv
      split at hv <;> obtain ⟨rfl, rfl⟩ := Prod.mk.inj (Option.some.inj hv) <;> exact .same _ _ _ _
  | shm_read s len =>
      obtain ⟨rfl, rfl⟩ := Prod.mk.inj (Option.some.inj hv)
      exact .same _ _ _ _
  | shm_drop q =>
      obtain ⟨rfl, rfl⟩ := Prod.mk.inj (Option.some.inj hv)
      rw [drop_region_eq]
      refine .regions (fun n => ?_) (fun _ => .inl rfl) (.inl rfl)
      rcases drop_region_names w q n with h | ⟨h, hn, hs⟩
      · exact .inl h
      · exact .inr (.inl ⟨h, .drop hn hs⟩)
  | overflow_remove side i =>
      obtain ⟨rfl, rfl⟩ := Prod.mk.inj (Option.some.inj hv)
      exact .overflow (fun n q hq hn hs => .remove hq hn hs) (.inl ⟨rfl, rfl⟩)
  | overflow_insert side i q =>
      obtain ⟨rfl, rfl⟩ := Prod.mk.inj (Option.some.inj hv)
      exact .overflow (fun n q hq hn hs => .insert hq hn hs) (.inr ⟨q, rfl, rfl⟩)
  | pending_insert id tx =>
      obtain ⟨rfl, rfl⟩ := Prod.mk.inj (Option.some.inj hv)
      refine { Changes.same t _ _ w with pending := fun id' => ?_ }
      by_cases hid : id' = id
      · exact .inr (.inr ⟨tx, by rw [hid], by simp [hid]⟩)
      · exact .inl (by simp [hid])
  | pending_remove id =>
      obtain ⟨rfl, rfl⟩ := Prod.mk.inj (Option.some.inj hv)
      refine { Changes.same t _ _ w with pending := fun id' => ?_ }
      by_cases hid : id' = id
      · exact .inr (.inl ⟨by rw [hid], by simp [hid]⟩)
      · exact .inl (by simp [hid])
  | send tx response =>
      obtain ⟨rfl, rfl⟩ := Prod.mk.inj (Option.some.inj hv)
      refine { Changes.same t _ _ w with resolved := fun tx' => ?_ }
      by_cases htx : tx' = tx
      · exact .inr ⟨response, by rw [htx], by simp [htx]⟩
      · exact .inl (by simp [htx])
  | signal e =>
      obtain ⟨rfl, rfl⟩ := Prod.mk.inj (Option.some.inj hv)
      refine { Changes.same t _ _ w with event := fun e' => ?_ }
      by_cases he : e' = e
      · exact .inr (.inl ⟨by rw [he], by cases target <;> simp [he, signal_tokens]⟩)
      · exact .inl (by simp [he])
  | wait e =>
      simp only [effect] at hv
      split at hv
      · obtain ⟨rfl, rfl⟩ := Prod.mk.inj (Option.some.inj hv)
        exact .same _ _ _ _
      split at hv
      · cases hv
      · rename_i htokens
        obtain ⟨rfl, rfl⟩ := Prod.mk.inj (Option.some.inj hv)
        refine { Changes.same t _ _ w with event := fun e' => ?_ }
        by_cases he : e' = e
        · exact .inr (.inr ⟨by rw [he], by simp [he]; omega⟩)
        · exact .inl (by simp [he])
  | running side =>
      obtain ⟨rfl, rfl⟩ := Prod.mk.inj (Option.some.inj hv)
      exact .same _ _ _ _
  | handle worker i request =>
      obtain ⟨rfl, rfl⟩ := Prod.mk.inj (Option.some.inj hv)
      exact { Changes.same t _ _ w with invocations := .inr ⟨worker, i, request, rfl, rfl⟩ }
  | finish result =>
      obtain ⟨rfl, rfl⟩ := Prod.mk.inj (Option.some.inj hv)
      exact .same _ _ _ _
  | panic => cases hv


/-! ### The created regions -/

/-- The regions of the history are different segments, and none of them will be created again. -/
structure World.Consistent (w : World) : Prop where
  lt_next : ∀ t r, Created_by t r w.log → r.segment < w.next_segment
  unique : ∀ t u r q, Created_by t r w.log → Created_by u q w.log → r.segment = q.segment →
    t = u ∧ r = q

theorem consistent_of_log_eq_nil {w : World} (h : w.log = []) : w.Consistent where
  lt_next t r hr := by simp [Created_by, h] at hr
  unique t u r q hr := by simp [Created_by, h] at hr

/-- A region in the history is an old one or the one just created. -/
theorem created_cases (h : (machine target).exec t a c w = some (r, w')) {u : Thread}
    {q : OverflowRegion} (hq : Created_by u q w'.log) :
    Created_by u q w.log ∨ (u = t ∧ a = .shm_create q.name q.len ∧ q.segment = w.next_segment ∧
      w'.next_segment = w.next_segment + 1) := by
  rw [Created_by, (exec_changes h).log, List.mem_cons] at hq
  rcases hq with heq | hold
  · right
    obtain ⟨rfl, rfl, heq⟩ := Entry.mk.inj heq
    obtain rfl := eq_of_heq heq
    obtain ⟨v, hv, rfl⟩ := exec_iff.mp h
    simp only [effect] at hv
    split at hv
    · cases (Prod.mk.inj (Option.some.inj hv)).1
    split at hv
    · cases (Prod.mk.inj (Option.some.inj hv)).1
    · obtain ⟨hr, rfl⟩ := Prod.mk.inj (Option.some.inj hv)
      exact ⟨rfl, rfl, (congrArg OverflowRegion.segment (Created.region.inj hr)).symm, rfl⟩
  · exact .inl hold

theorem Changes.next_segment_le (h : Changes t a r w w') : w.next_segment ≤ w'.next_segment := by
  rcases h.next_segment with h | ⟨h, -⟩ <;> omega

theorem exec_consistent (hw : w.Consistent) (h : (machine target).exec t a c w = some (r, w')) :
    w'.Consistent where
  lt_next u q hq := by
    have hnext := (exec_changes h).next_segment_le
    rcases created_cases h hq with hold | ⟨-, -, hseg, hnext'⟩
    · exact lt_of_lt_of_le (hw.lt_next u q hold) hnext
    · omega
  unique u v p q hp hq heq := by
    rcases created_cases h hp with hp | ⟨rfl, ha, hseg, -⟩ <;>
      rcases created_cases h hq with hq | ⟨rfl, hb, hseg', -⟩
    · exact hw.unique u v p q hp hq heq
    · have := hw.lt_next u p hp
      omega
    · have := hw.lt_next v q hq
      omega
    · obtain ⟨hn, hl⟩ := Action.shm_create.inj (ha.symm.trans hb)
      cases p
      cases q
      simp_all

/-! ### Outcomes -/

theorem exec_write {x : ℕ} {bs : List UInt8} {r : Unit}
    (h : (machine target).exec t (.write x bs) c w = some (r, w')) :
    w' = { w with mem := write w.mem x bs, log := ⟨t, .write x bs, ()⟩ :: w.log } := by
  obtain ⟨v, hv, rfl⟩ := exec_iff.mp h
  obtain ⟨-, rfl⟩ := Prod.mk.inj (Option.some.inj hv)
  rfl

theorem exec_shm_create {n : String} {size : ℕ} {x : Created}
    (h : (machine target).exec t (.shm_create n size) c w = some (x, w')) :
    (∃ text, x = .error text) ∨ x = .mapping_id_exists ∨
      (x = .region ⟨n, w.next_segment, size⟩ ∧ w'.names n = some w.next_segment ∧
        w'.segments w.next_segment = ⟨size, fun _ => 0, false⟩ ∧
        Created_by t ⟨n, w.next_segment, size⟩ w'.log ∧
        latest_region (history t w'.log) = some ⟨n, w.next_segment, size⟩) := by
  obtain ⟨v, hv, rfl⟩ := exec_iff.mp h
  simp only [effect] at hv
  split at hv
  · obtain ⟨rfl, rfl⟩ := Prod.mk.inj (Option.some.inj hv)
    exact .inl ⟨_, rfl⟩
  split at hv <;> obtain ⟨rfl, rfl⟩ := Prod.mk.inj (Option.some.inj hv)
  · exact .inr (.inl rfl)
  · exact .inr (.inr ⟨rfl, by simp, by simp, by simp [Created_by],
      congrArg latest_region (history_cons_self t _ _ w.log)⟩)

theorem exec_shm_write {q : OverflowRegion} {data : List UInt8} {r : Unit}
    (h : (machine target).exec t (.shm_write q data) c w = some (r, w')) :
    w' = { w with
      segments := Function.update w.segments q.segment ((w.segments q.segment).fill data)
      log := ⟨t, .shm_write q data, ()⟩ :: w.log } := by
  obtain ⟨v, hv, rfl⟩ := exec_iff.mp h
  obtain ⟨-, rfl⟩ := Prod.mk.inj (Option.some.inj hv)
  rfl


end Changes
end SlotBus
