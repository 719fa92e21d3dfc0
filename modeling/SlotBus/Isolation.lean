import SlotBus.Records

/-!
# Slots are isolated from each other

The functions of `region.rs` run one after the other.  Each of them keeps to one half of one slot,
so a payload that was written is still there, byte for byte, after any traffic on the other halves.

* `record_tenancy`, `alone_tenancy` — a function that runs alone has the half to itself;
* `write_request_alone`, `write_response_alone` — what a successful write leaves behind;
* `Kept` — a payload whose overflow handle is kept; `kept_of_allowed` — no action on another half
  touches it;
* `slots_isolated` — **isolation with round trip**, for both directions.
-/

namespace SlotBus

open ByteMemory AtomicProgram AtomicProgram.Program

/-- The machine without launches: a program runs alone. -/
def alone (target : Target) : System bus Thread World Choice Empty where
  toMachine := machine target
  launch e := nomatch e

/-- The actions of a function that works on one half, its status stores included. -/
def SlotHalf.Allowed (H : SlotHalf) (t : Thread) (a : Action) (w : World) : Prop :=
  H.Own t w.log a ∨ a.reads ∨ ∃ v, a = .store H.slot v

/-- The contract of a function that works on one half and runs alone. -/
def alone_contract (H : SlotHalf) (t : Thread) : Contract (alone H.target) :=
  .solo (alone H.target) t (H.Allowed t)

/-- A function that runs alone has the record of its half to itself, and the arena as far as
`faithful` vouches for it. -/
def record_tenancy {H : SlotHalf} (t : Thread) (hH : H.InTable) (faithful : Prop)
    (hsound : faithful → H.Sound) :
    Tenancy (alone_contract H t) t H where
  holds _ := True
  faithful := faithful
  tracked := True
  firm := True
  machine_eq := rfl
  in_table := hH
  sound := hsound
  stable := Contract.solo_stable _
  history_eq h := absurd h Contract.solo_not_interferes
  quiet h := absurd h Contract.solo_not_interferes
  read_legal _ _ ha := ⟨rfl, .inr (.inl ha)⟩
  read_keeps _ _ _ _ := trivial
  own_legal _ _ ha := ⟨rfl, .inl ha⟩
  own_keeps _ _ _ _ := trivial

/-- A function that runs alone has the half to itself. -/
def alone_tenancy {H : SlotHalf} (t : Thread) (hH : H.Sound) : Tenancy (alone_contract H t) t H :=
  record_tenancy t hH.toInTable True fun _ => hH

/-- The contract of a function that only reads and runs alone. -/
def reader_contract (target : Target) (t : Thread) : Contract (alone target) :=
  .solo (alone target) t fun a _ => a.reads

/-- A reader that runs alone. -/
def reader_lease {H : SlotHalf} (t : Thread) (hH : H.Sound) :
    Lease (reader_contract H.target t) t H where
  holds _ := True
  faithful := True
  tracked := True
  firm := True
  machine_eq := rfl
  in_table := hH.toInTable
  sound _ := hH
  stable := Contract.solo_stable _
  history_eq h := absurd h Contract.solo_not_interferes
  quiet h := absurd h Contract.solo_not_interferes
  read_legal _ _ ha := ⟨rfl, ha⟩
  read_keeps _ _ _ _ := trivial

/-- Reading is always possible. -/
theorem reads_enabled {target : Target} {t : Thread} {w : World} {a : Action} (ha : a.reads) :
    ∃ c r w', (machine target).exec t a c w = some (r, w') := by
  have henabled : ∃ r v, effect target ⟨false, ""⟩ w a = some (r, v) := by
    cases a with
    | load i => exact ⟨_, _, rfl⟩
    | read x n => exact ⟨_, _, rfl⟩
    | shm_read s n => exact ⟨_, _, rfl⟩
    | shm_open n =>
        simp only [effect]
        split <;> exact ⟨_, _, rfl⟩
    | _ => exact ha.elim
  obtain ⟨r, v, hv⟩ := henabled
  exact ⟨_, r, _, exec_iff.mpr ⟨v, hv, rfl⟩⟩

/-! ### Traffic elsewhere -/

/-- A payload whose overflow handle, if there is one, is kept. -/
structure Kept (K : SlotHalf) (m : Memory) (writer : Thread) (body : List UInt8) (P : Placement)
    (w : World) : Prop where
  bytes : AgreeOn K.footprint m w.mem
  backed : ∀ r, P.handle = some r → K.Backed writer r body w
  live : P.Live w
  consistent : w.Consistent

variable {target : Target} {t : Thread} {a : Action} {c : Choice} {r : Answer a} {w w' : World}

/-- An action on a half changes the mapping only there and in the status word. -/
theorem allowed_mem {H : SlotHalf} (hH : H.Sound) (ha : H.Allowed t a w)
    (hx : (machine target).exec t a c w = some (r, w')) {A : Set ℕ} (h1 : Disjoint A H.footprint)
    (h2 : Disjoint A (status_word H.slot)) : AgreeOn A w.mem w'.mem := by
  intro x hxA
  refine ((exec_changes hx).mem x ?_ ?_).symm
  · intro hwritten
    cases a with
    | write y bytes =>
        have hsub : span y bytes.length ⊆ H.footprint := by
          rcases ha with ha | ha | ⟨v, ha⟩
          · exact ha.2 hH.heap_lt
          · exact ha.elim
          · cases ha
        exact Set.disjoint_left.mp h1 hxA (hsub hwritten)
    | _ => exact hwritten
  · rintro i hi hxi
    have hslot : i = H.slot := by
      rcases ha with ha | ha | ⟨v, rfl⟩
      · cases a <;> first | exact ha.elim | cases hi
      · cases a <;> first | exact ha.elim | cases hi
      · exact (Option.some.inj hi).symm
    exact Set.disjoint_left.mp h2 hxA (hslot ▸ hxi)

/-- **No action on one half touches a payload in another.** -/
theorem kept_of_allowed {H K : SlotHalf} (hregion : K.region = H.region)
    (hconfig : K.config = H.config) (htarget : K.target = H.target) (hH : H.Sound) (hK : K.Sound)
    (hbound : H.target = .macos → H.slot < 1000 ∧ K.slot < 1000) (hne : H.direction ≠ K.direction ∨
      H.slot ≠ K.slot) {m : Memory} {writer : Thread}
    {body : List UInt8} {P : Placement} (h : Kept K m writer body P w) (ha : H.Allowed t a w)
    (hx : (machine H.target).exec t a c w = some (r, w')) : Kept K m writer body P w' := by
  have hch := exec_changes hx
  have hmem : AgreeOn K.footprint w.mem w'.mem :=
    allowed_mem hH ha hx (SlotHalf.footprint_disjoint hregion hH.toInTable hK.toInTable hne).symm
      (SlotHalf.footprint_disjoint_status hK.toInTable (hregion ▸ hH.slot_lt))
  have hforeign : ∀ n, K.OwnName n → ¬ H.OwnName n := fun n hKn hHn =>
    SlotHalf.own_name_disjoint hconfig htarget hbound hne hHn hKn
  have hnames : ∀ n, K.OwnName n → w'.names n = w.names n := by
    intro n hn
    rcases hch.names n with h | ⟨-, hrel⟩ | ⟨size, rfl, -⟩
    · exact h
    · rcases ha with ha | ha | ⟨v, rfl⟩
      · cases hrel with
        | reclaim hs ho => exact absurd ha (hforeign n hn)
        | _ => exact ha.elim
      · cases hrel <;> exact ha.elim
      · cases hrel
    · rcases ha with ha | ha | ⟨v, ha⟩
      · exact absurd ha (hforeign n hn)
      · exact ha.elim
      · cases ha
  have hsegments : ∀ q, Created_by writer q w.log → K.OwnName q.name →
      w'.segments q.segment = w.segments q.segment := by
    intro q hq hn
    rcases hch.segments q.segment with h' | ⟨hs, -⟩ | ⟨p, data, rfl, hs, -⟩
    · exact h'
    · have := h.consistent.lt_next writer q hq
      omega
    · rcases ha with ha | ha | ⟨v, ha⟩
      · obtain ⟨-, rfl⟩ := h.consistent.unique _ _ _ _ hq ha.2 hs
        exact absurd ha.1 (hforeign _ hn)
      · exact ha.elim
      · cases ha
  refine ⟨h.bytes.trans hmem, fun q hq => ?_, fun q hq => ?_, exec_consistent h.consistent hx⟩
  · have hb := h.backed q hq
    have hseg := hsegments q hb.created hb.own
    exact ⟨hb.own, hch.log ▸ List.mem_cons_of_mem _ hb.created, by rw [hseg]; exact hb.len,
      by rw [hseg]; exact hb.bytes, fun s hs => hb.named s (hnames _ hb.own ▸ hs)⟩
  · rw [hnames _ (h.backed q hq).own]
    exact h.live q hq

/-! ### Writing alone -/

/-- What a successful write of a payload leaves in its half. -/
structure WroteAlone (H : SlotHalf) (t : Thread) (meta_bytes body : List UInt8) (P : Placement)
    (m : Memory) (w : World) : Prop where
  bytes : AgreeOn H.footprint (H.place meta_bytes body P m) w.mem
  recorded : H.Recorded meta_bytes body P (H.place meta_bytes body P m)
  backed : ∀ r, P.handle = some r → H.Backed t r body w
  live : P.Live w

/-- The status store after a payload has been placed. -/
theorem wrote_of_store {H : SlotHalf} (hH : H.Sound) {meta_bytes body : List UInt8} {P : Placement}
    {m : Memory} {u w' : World} {v : ℕ} {x : Unit}
    (h : (alone_tenancy t hH).Written meta_bytes body P m u)
    (hx : (machine H.target).exec t (.store H.slot v) c u = some (x, w')) :
    WroteAlone H t meta_bytes body P m w' := by
  have hmem : AgreeOn H.footprint u.mem w'.mem := fun y hy =>
    ((exec_changes hx).mem y (Set.notMem_empty y) fun i hi =>
      (Option.some.inj hi) ▸ Set.disjoint_left.mp
        (SlotHalf.footprint_disjoint_status hH.toInTable hH.slot_lt) hy).symm
  obtain ⟨v', hv, rfl⟩ := exec_iff.mp hx
  obtain ⟨-, rfl⟩ := Prod.mk.inj (Option.some.inj hv)
  have hP := h.filled
  refine ⟨(hP.bytes.mono (SlotHalf.footprint_subset_area trivial)).trans hmem,
    SlotHalf.place_recorded hH hP.meta_fits (hP.placed trivial) m, ?_, ?_⟩
  · intro r hr
    obtain ⟨g, -, hfresh⟩ := hP.fresh r hr
    exact { hfresh.backed trivial with created := List.mem_cons_of_mem _ hfresh.created }
  · intro r hr
    obtain ⟨g, -, hfresh⟩ := hP.fresh r hr
    exact hfresh.live trivial trivial

section Writing

variable {region : ShmRegion} {config : SlotBusConfig} {i : ℕ} {meta_bytes body : List UInt8}

/-- A program that ends with a status store of its own slot. -/
theorem safe_store {H : SlotHalf} {α : Type} {v : ℕ} {result : α} {Q : α → World → Prop} {u : World}
    (hk : ∀ c x w', (machine H.target).exec t (.store H.slot v) c u = some (x, w') → Q result w') :
    (alone_contract H t).Safe t (.act (.store H.slot v) fun _ => .done result) Q u := by
  refine Contract.Safe.act (P := (· = u)) (Contract.solo_stable _) rfl
    (fun _ _ _ => ⟨rfl, .inr (.inr ⟨v, rfl⟩)⟩) ?_
  rintro _ c x w' - rfl - hx
  exact Contract.Safe.done (P := fun w => w = w') (Contract.solo_stable _) rfl
    fun _ _ hw => hw ▸ hk c x w' hx

theorem write_request_alone (hH : SlotHalf.Sound ⟨.request, target, region, config, i⟩)
    {req_id : String} {method : UInt8} (w : World) :
    (alone_contract ⟨.request, target, region, config, i⟩ t).Safe t
      (write_request target region i req_id method meta_bytes body config)
      (fun result w' => ∀ overflow, result = .ok overflow → ∃ P, P.handle = overflow ∧
        WroteAlone ⟨.request, target, region, config, i⟩ t meta_bytes body P
          (place_header i req_id method w.mem) w') w := by
  refine Tenancy.write_request (T := alone_tenancy t hH) (m := w.mem)
    ⟨trivial, .refl _ _⟩ trivial ?_ ?_
  · intro e u _ _ _
    exact safe_store (H := ⟨.request, target, region, config, i⟩) fun _ _ _ _ _ h => nomatch h
  · intro P u _ hP
    refine safe_store (H := ⟨.request, target, region, config, i⟩) fun c x w' hx overflow h => ?_
    exact ⟨P, Except.ok.inj h, wrote_of_store hH hP hx⟩

theorem write_response_alone (hH : SlotHalf.Sound ⟨.response, target, region, config, i⟩)
    {status : UInt16} (w : World) :
    (alone_contract ⟨.response, target, region, config, i⟩ t).Safe t
      (write_response target region i status meta_bytes body config).run
      (fun result w' => ∀ overflow, result = .ok overflow → ∃ P, P.handle = overflow ∧
        WroteAlone ⟨.response, target, region, config, i⟩ t meta_bytes body P
          (place_status i status w.mem) w') w := by
  refine Tenancy.write_response (T := alone_tenancy t hH) (m := w.mem)
    ⟨trivial, .refl _ _⟩ ?_ ?_
  · intro e u _ _ _ _ h
    cases h
  · intro P u _ hP
    refine safe_store (H := ⟨.response, target, region, config, i⟩) fun c x w' hx overflow h => ?_
    exact ⟨P, Except.ok.inj h, wrote_of_store hH hP hx⟩

end Writing

/-! ### Any traffic -/

/-- The header of the region. -/
def header : Set ℕ := span 0 SHM_HEADER_SIZE

theorem header_disjoint {H : SlotHalf} (hH : H.Sound) :
    Disjoint header H.footprint ∧ Disjoint header (status_word H.slot) := by
  have htable := hH.table
  simp only [ShmRegion.TableBelowHeap, SHM_HEADER_SIZE] at htable
  have hstatus : Disjoint header (status_word H.slot) :=
    disjoint_span (by simp only [slot_address, SHM_HEADER_SIZE]; omega)
  refine ⟨Set.disjoint_union_right.mpr ⟨?_, ?_⟩, hstatus⟩
  · cases H.direction <;> exact disjoint_span (by simp only [slot_address, SHM_HEADER_SIZE]; omega)
  · exact disjoint_span (by simp only [SHM_HEADER_SIZE]; omega)

/-- Any sequence of calls on halves other than `kept`, and of drops of handles other than
`overflow`.  The calls may succeed or fail. -/
inductive Traffic (kept : SlotHalf) (overflow : Option OverflowRegion) : World → World → Prop where
  | refl (w : World) : Traffic kept overflow w w
  | write_request {w w₁ w₂ : World} {t : Thread} {j : ℕ} {req_id : String} {method : UInt8}
      {meta_bytes body : List UInt8} {result : Except SlotBusError (Option OverflowRegion)}
      (h : Traffic kept overflow w w₁) (hj : j < kept.region.num_slots)
      (hne : kept.direction ≠ .request ∨ kept.slot ≠ j)
      (hrun : Runs (machine kept.target) t
        (write_request kept.target kept.region j req_id method meta_bytes body kept.config)
          w₁ result w₂) :
      Traffic kept overflow w w₂
  | write_response {w w₁ w₂ : World} {t : Thread} {j : ℕ} {status : UInt16}
      {meta_bytes body : List UInt8} {result : Except SlotBusError (Option OverflowRegion)}
      (h : Traffic kept overflow w w₁) (hj : j < kept.region.num_slots)
      (hne : kept.direction ≠ .response ∨ kept.slot ≠ j)
      (hrun : Runs (machine kept.target) t
        (write_response kept.target kept.region j status meta_bytes body kept.config).run
          w₁ result w₂) :
      Traffic kept overflow w w₂
  | drop {w w₁ w₂ : World} {t : Thread} {r : OverflowRegion} (h : Traffic kept overflow w w₁)
      (hne : ∀ q, overflow = some q → r.segment ≠ q.segment)
      (hrun : Runs (machine kept.target) t (shm_drop r) w₁ () w₂) : Traffic kept overflow w w₂

/-- Dropping another handle keeps a payload. -/
theorem kept_of_drop {K : SlotHalf} {m : Memory} {writer : Thread}
    {body : List UInt8} {P : Placement} {q : OverflowRegion} {x : Unit}
    (h : Kept K m writer body P w) (hne : ∀ p, P.handle = some p → q.segment ≠ p.segment)
    (hx : (machine K.target).exec t (.shm_drop q) c w = some (x, w')) :
    Kept K m writer body P w' := by
  have hcons := exec_consistent h.consistent hx
  obtain ⟨v, hv, rfl⟩ := exec_iff.mp hx
  obtain ⟨-, rfl⟩ := Prod.mk.inj (Option.some.inj hv)
  have hnames : ∀ p, P.handle = some p → (w.drop_region q).names p.name = w.names p.name := by
    intro p hp
    rcases drop_region_names w q p.name with h' | ⟨-, -, hs⟩
    · exact h'
    · exact absurd (Option.some.inj (hs.symm.trans (h.live p hp))) (hne p hp)
  rw [drop_region_eq] at hcons ⊢
  refine ⟨h.bytes, fun p hp => ?_, fun p hp => (hnames p hp).trans (h.live p hp), hcons⟩
  have hb := h.backed p hp
  exact ⟨hb.own, List.mem_cons_of_mem _ hb.created, hb.len, hb.bytes,
    fun s hs => hb.named s ((hnames p hp) ▸ hs)⟩

section Calls

variable {α : Type} {p : Program bus α} {Q : α → World → Prop} {v : α}

/-- A call on one half keeps a payload in another. -/
theorem kept_of_safe {H K : SlotHalf} (hregion : K.region = H.region)
    (hconfig : K.config = H.config) (htarget : K.target = H.target) (hH : H.Sound) (hK : K.Sound)
    (hbound : H.target = .macos → H.slot < 1000 ∧ K.slot < 1000) (hne : H.direction ≠ K.direction ∨
      H.slot ≠ K.slot) {m : Memory} {writer : Thread}
    {body : List UInt8} {P : Placement} (hsafe : (alone_contract H t).Safe t p Q w)
    (hrun : Runs (machine H.target) t p w v w') (h : Kept K m writer body P w) :
    Kept K m writer body P w' := by
  have hframe := hsafe.frame (F := Kept K m writer body P) (Contract.solo_stable _)
    (fun u a c r u' _ hl hx hu =>
      kept_of_allowed hregion hconfig htarget hH hK hbound hne hu hl.2 hx) h
  exact ((hframe.runs trivial hrun).2).2

/-- A call on one half keeps the header. -/
theorem header_of_safe {H : SlotHalf} (hH : H.Sound) (hsafe : (alone_contract H t).Safe t p Q w)
    (hrun : Runs (machine H.target) t p w v w') : AgreeOn header w.mem w'.mem := by
  obtain ⟨hfoot, hstatus⟩ := header_disjoint hH
  have hframe := hsafe.frame (F := fun u => AgreeOn header w.mem u.mem) (Contract.solo_stable _)
    (fun u a c r u' _ hl hx hu => hu.trans (allowed_mem hH hl.2 hx hfoot hstatus)) (.refl _ _)
  exact ((hframe.runs trivial hrun).2).2

end Calls

/-- Dropping a handle does not write the mapping. -/
theorem mem_of_drop {q : OverflowRegion} {v : Unit}
    (hrun : Runs (machine target) t (shm_drop q) w v w') :
    w'.mem = w.mem := by
  obtain ⟨c, r, u, hx, hdone⟩ := Runs.act_iff.mp hrun
  obtain ⟨-, rfl⟩ := Runs.done_iff.mp hdone
  exact funext fun x => (exec_changes hx).mem x (Set.notMem_empty x) fun i hi => nomatch hi

/-- **A run of traffic keeps the payload.** -/
theorem kept_of_traffic {K : SlotHalf} (hK : K.Sound)
    (hbound : K.target = .macos → K.region.num_slots ≤ 256) {m : Memory} {writer : Thread}
    {body : List UInt8} {P : Placement} (htraffic : Traffic K P.handle w w')
    (h : Kept K m writer body P w) : Kept K m writer body P w' := by
  have hslots : ∀ j, j < K.region.num_slots → K.target = .macos → j < 1000 ∧ K.slot < 1000 :=
    fun j hj ht => by
      have h1 := hbound ht
      have h2 := hK.slot_lt
      omega
  induction htraffic with
  | refl => exact h
  | write_request _ hj hne hrun ih =>
      have hH : SlotHalf.Sound ⟨.request, K.target, K.region, K.config, _⟩ :=
        ⟨⟨hK.table, hj⟩, hK.heap_lt⟩
      exact kept_of_safe (H := ⟨.request, K.target, K.region, K.config, _⟩)
        (K := K) rfl rfl rfl hH hK
        (hslots _ hj) (hne.imp Ne.symm Ne.symm) (write_request_alone hH _) hrun ih
  | write_response _ hj hne hrun ih =>
      have hH : SlotHalf.Sound ⟨.response, K.target, K.region, K.config, _⟩ :=
        ⟨⟨hK.table, hj⟩, hK.heap_lt⟩
      exact kept_of_safe (H := ⟨.response, K.target, K.region, K.config, _⟩)
        (K := K) rfl rfl rfl hH hK
        (hslots _ hj) (hne.imp Ne.symm Ne.symm) (write_response_alone hH _) hrun ih
  | drop _ hne hrun ih =>
      obtain ⟨c, r, u, hx, hdone⟩ := Runs.act_iff.mp hrun
      obtain ⟨-, rfl⟩ := Runs.done_iff.mp hdone
      exact kept_of_drop ih hne hx

/-- **A run of traffic keeps the header.** -/
theorem header_of_traffic {K : SlotHalf} (hK : K.Sound) {overflow : Option OverflowRegion}
    (htraffic : Traffic K overflow w w') : AgreeOn header w.mem w'.mem := by
  induction htraffic with
  | refl => exact .refl _ _
  | write_request _ hj _ hrun ih =>
      have hH : SlotHalf.Sound ⟨.request, K.target, K.region, K.config, _⟩ :=
        ⟨⟨hK.table, hj⟩, hK.heap_lt⟩
      exact ih.trans (header_of_safe hH (write_request_alone hH _) hrun)
  | write_response _ hj _ hrun ih =>
      have hH : SlotHalf.Sound ⟨.response, K.target, K.region, K.config, _⟩ :=
        ⟨⟨hK.table, hj⟩, hK.heap_lt⟩
      exact ih.trans (header_of_safe hH (write_response_alone hH _) hrun)
  | drop _ _ hrun ih => exact mem_of_drop hrun ▸ ih

/-! ### Reading back -/

/-- Run alone by whichever thread, the program can finish, and it always gives the result `v`. -/
def Returns {α : Type} (target : Target) (p : Program bus α) (w : World) (v : α) : Prop :=
  ∀ t, (∃ w', Runs (machine target) t p w v w') ∧ ∀ u w', Runs (machine target) t p w u w' → u = v

theorem returns_of_safe {α : Type} {target : Target} {p : Program bus α} {w : World} {v : α}
    (h : ∀ t, (reader_contract target t).Safe t p (fun u _ => u = v) w) : Returns target p w v := by
  intro t
  obtain ⟨u, w', hrun, rfl⟩ := Contract.Safe.progress (C := reader_contract target t)
    (fun _ _ _ hl => reads_enabled hl.2) (h t) trivial
  exact ⟨⟨w', hrun⟩, fun u' w'' hrun' => ((h t).runs trivial hrun').2⟩

section Reading

variable {region : ShmRegion} {config : SlotBusConfig} {i : ℕ} {meta_bytes body : List UInt8}
  {m : Memory} {writer : Thread} {P : Placement}

/-- What a read of a recorded request gives. -/
theorem read_request_returns (hH : SlotHalf.Sound ⟨.request, target, region, config, i⟩)
    (codec : Codec RequestMeta)
    (hbytes : AgreeOn (SlotHalf.footprint ⟨.request, target, region, config, i⟩) m w.mem)
    (hbacked : ∀ r, P.handle = some r →
      SlotHalf.Backed ⟨.request, target, region, config, i⟩ writer r body w) (hlive : P.Live w)
    (hr : SlotHalf.Recorded ⟨.request, target, region, config, i⟩ meta_bytes body P m)
    (hmeta : meta_bytes.length < 2 ^ 16) (hbody : body.length < 2 ^ 32) :
    Returns target (read_request codec target region i config).run w
      (((codec.from_bytes meta_bytes).mapError .Serialization).map fun v =>
        (decode_req_id (read m (slot_address i + 4) 36),
          UInt8.ofNat (load m (slot_address i + 40) 1),
          v, body)) := by
  refine returns_of_safe fun t => ?_
  refine Lease.read_request (K := reader_lease t hH) trivial trivial
    ⟨trivial, hbytes.mono SlotHalf.area_subset_footprint, fun _ => hbacked, fun _ _ => hlive⟩ hr
      hmeta hbody ?_ (fun hfirm => absurd trivial hfirm) ?_
  · intro e u he _ _
    rw [he]
    rfl
  · intro v u hv _ _
    rw [hv]
    rfl

/-- What a read of a recorded response gives. -/
theorem read_response_returns (hH : SlotHalf.Sound ⟨.response, target, region, config, i⟩)
    (codec : Codec ResponseMeta)
    (hbytes : AgreeOn (SlotHalf.footprint ⟨.response, target, region, config, i⟩) m w.mem)
    (hbacked : ∀ r, P.handle = some r →
      SlotHalf.Backed ⟨.response, target, region, config, i⟩ writer r body w) (hlive : P.Live w)
    (hr : SlotHalf.Recorded ⟨.response, target, region, config, i⟩ meta_bytes body P m)
    (hmeta : meta_bytes.length < 2 ^ 16) (hbody : body.length < 2 ^ 32) :
    Returns target (read_response codec target region i config).run w
      (((codec.from_bytes meta_bytes).mapError .Serialization).map fun v =>
        (UInt16.ofNat (load m (slot_address i + 64) 2), v, body)) := by
  refine returns_of_safe fun t => ?_
  refine Lease.read_response (K := reader_lease t hH) trivial trivial
    ⟨trivial, hbytes.mono SlotHalf.area_subset_footprint, fun _ => hbacked, fun _ _ => hlive⟩ hr
      hmeta hbody ?_ (fun hfirm => absurd trivial hfirm) ?_
  · intro e u he _ _
    rw [he]
    rfl
  · intro v u hv _ _
    rw [hv]
    rfl

end Reading

/-! ### Isolation -/

/-- A successful write is kept. -/
theorem WroteAlone.kept {H : SlotHalf} {meta_bytes body : List UInt8} {P : Placement} {m : Memory}
    (h : WroteAlone H t meta_bytes body P m w) (hw : w.Consistent) :
    Kept H (H.place meta_bytes body P m) t body P w :=
  ⟨h.bytes, h.backed, h.live, hw⟩

/-- What every action preserves, a run preserves. -/
theorem runs_consistent {α : Type} {p : Program bus α} {v : α} (hw : w.Consistent)
    (hrun : Runs (machine target) t p w v w') : w'.Consistent := by
  induction hrun with
  | done v s => exact hw
  | act hx _ ih => exact ih (exec_consistent hw hx)

/-- **Slots and directions are isolated, with round trip.**  A request that `write_request` accepted
is read back exactly after any traffic on the other halves, and so is a response; and the header is
never modified. -/
theorem slots_isolated {raw region : ShmRegion} {config : SlotBusConfig} {mem mem' : Memory}
    {target : Target} {request_codec : Codec RequestMeta} {response_codec : Codec ResponseMeta}
    (hinit : raw.init_control config mem = .ok (region, mem')) (hslots : config.num_slots ≤ 256)
    (hheap : region.heap_size < 2 ^ 32) (hrequest : request_codec.RoundTrip)
    (hresponse : response_codec.RoundTrip) {i : ℕ} (hi : i < region.num_slots) {t : Thread}
    {w w₁ w₂ : World} (hlog : w.log = []) {meta_bytes body : List UInt8}
    (hmeta : meta_bytes.length ≤ 65535) (hbody : body.length < 2 ^ 32)
    {overflow : Option OverflowRegion} :
    (∀ req_id method m, FitsIdField req_id → request_codec.to_allocvec m = .ok meta_bytes →
      Runs (machine target) t (write_request target region i req_id method meta_bytes body config) w
        (.ok overflow) w₁ →
      Traffic ⟨.request, target, region, config, i⟩ overflow w₁ w₂ →
      Returns target (read_request request_codec target region i config).run w₂
        (.ok (req_id, method, m, body)) ∧ AgreeOn header w.mem w₂.mem) ∧
    (∀ status m, response_codec.to_allocvec m = .ok meta_bytes →
      Runs (machine target) t (write_response target region i status meta_bytes body config).run w
        (.ok overflow) w₁ →
      Traffic ⟨.response, target, region, config, i⟩ overflow w₁ w₂ →
      Returns target (read_response response_codec target region i config).run w₂
        (.ok (status, m, body)) ∧ AgreeOn header w.mem w₂.mem) := by
  have htable := init_control_table hinit
  have hbound : target = .macos → region.num_slots ≤ 256 := fun _ => by
    rw [(init_control_layout hinit).1]
    exact hslots
  have hw : w.Consistent := consistent_of_log_eq_nil hlog
  constructor
  · intro req_id method m hid hm hwrite htraffic
    have hH : SlotHalf.Sound ⟨.request, target, region, config, i⟩ := ⟨⟨htable, hi⟩, hheap⟩
    obtain ⟨P, rfl, hwrote⟩ := ((write_request_alone hH w).runs trivial hwrite).2 overflow rfl
    have hkept := kept_of_traffic hH hbound htraffic (hwrote.kept (runs_consistent hw hwrite))
    have hread := read_request_returns hH request_codec hkept.bytes hkept.backed hkept.live
      hwrote.recorded (by omega) hbody
    rw [hrequest m meta_bytes hm, decode_req_id_place _ _ _ hH.toInTable hid,
      method_place _ _ _ hH.toInTable] at hread
    exact ⟨hread, (header_of_safe hH (write_request_alone hH w) hwrite).trans
      (header_of_traffic hH htraffic)⟩
  · intro status m hm hwrite htraffic
    have hH : SlotHalf.Sound ⟨.response, target, region, config, i⟩ := ⟨⟨htable, hi⟩, hheap⟩
    obtain ⟨P, rfl, hwrote⟩ := ((write_response_alone hH w).runs trivial hwrite).2 overflow rfl
    have hkept := kept_of_traffic hH hbound htraffic (hwrote.kept (runs_consistent hw hwrite))
    have hread := read_response_returns hH response_codec hkept.bytes hkept.backed hkept.live
      hwrote.recorded (by omega) hbody
    rw [hresponse m meta_bytes hm, status_place _ _ _ hH.toInTable] at hread
    exact ⟨hread, (header_of_safe hH (write_response_alone hH w) hwrite).trans
      (header_of_traffic hH htraffic)⟩

/-! ### A small bus -/

/-- The small bus before any call. -/
def small_world : World := .start (fun _ => 0) (fun _ => none) (fun _ => ⟨0, fun _ => 0, false⟩) 0

/-- A request with an inline body, then an empty response on the same slot. -/
theorem slots_isolated_small : ∃ w₁ w₂,
    Traffic ⟨.request, .linux, small_region, small_config, 0⟩ none w₁ w₂ ∧
      Returns .linux (read_request (small_codec small_request [0, 0, 0, 0, 0]) .linux small_region 0
        small_config).run w₂ (.ok ("a", METHOD_POST, small_request, [7])) ∧
      AgreeOn header small_world.mem w₂.mem := by
  obtain ⟨w₂, hrun⟩ :=
    Machine.exists_run (M := machine .linux) (t := .dispatch 0) (c := ⟨false, ""⟩)
    (p := do
      let request ← write_request .linux small_region 0 "a" METHOD_POST
          [0, 0, 0, 0, 0] [7] small_config
      let response ← (write_response .linux small_region 0 200 [0, 0] [] small_config).run
      pure (request, response))
    (s := small_world) (v := (.ok none, .ok none)) rfl
  obtain ⟨request, w₁, hwrite, hrest⟩ := Runs.bind_iff.mp hrun
  obtain ⟨response, w₃, hresponse, hdone⟩ := Runs.bind_iff.mp hrest
  obtain ⟨hresult, rfl⟩ := Runs.done_iff.mp hdone
  obtain ⟨rfl, rfl⟩ := Prod.mk.inj hresult
  have htraffic : Traffic ⟨.request, .linux, small_region, small_config, 0⟩ none w₁ w₂ :=
    .write_response (.refl w₁) (by decide) (.inl (by decide)) hresponse
  exact ⟨w₁, w₂, htraffic, (slots_isolated small_region_laid_out (by decide)
    (by decide) (small_codec_roundTrip _ _) (small_codec_roundTrip small_response [0, 0])
    (by decide) rfl
    (by decide) (by decide)).1 "a" METHOD_POST small_request
    (by decide +kernel) rfl hwrite htraffic⟩

end SlotBus
