import CalmTrading.AlgoSystem

namespace CalmTrading.SingleOrder

open Lib Objects Utils Gateway OrderRecords Risk Algo AlgoSystem

variable {cfg : Config}

def Live (a : AlgoEngine) (h : History) (id : OrderId) : Prop := id ∈ a.orderStatus ∧ id ∉ h.ended

instance (a : AlgoEngine) (h : History) (id : OrderId) : Decidable (Live a h id) :=
  inferInstanceAs (Decidable (id ∈ a.orderStatus ∧ id ∉ h.ended))

/-- While an order is in flight no other order is ended. -/
def Alone (s : System) (m : Move) : Prop :=
  ∀ d ∈ s.handles m, endsOrder d = true → 0 < s.engine.inflightOrderId →
    d.orderId = s.engine.inflightOrderId

instance (s : System) (m : Move) : Decidable (Alone s m) :=
  inferInstanceAs (Decidable (∀ d ∈ s.handles m, endsOrder d = true →
    0 < s.engine.inflightOrderId → d.orderId = s.engine.inflightOrderId))

/-- A live order is the one in flight, and its last status is active. -/
structure Single (a : AlgoEngine) (h : History) : Prop where
  inflight : ∀ id, Live a h id → 0 < id ∧ a.inflightOrderId = id
  active : ∀ id, Live a h id → ∃ st, a.orderStatus.lookup id = some st ∧ isActiveOrder st = true

variable {a b : AlgoEngine} {h : History}

theorem Single.congr (hs : Single a h) {h' : History}
    (hstatus : b.orderStatus = a.orderStatus) (hinflight : b.inflightOrderId = a.inflightOrderId)
    (hended : h'.ended = h.ended) : Single b h' where
  inflight id hid := by
    rw [Live, hstatus, hended] at hid
    rw [hinflight]
    exact hs.inflight id hid
  active id hid := by
    rw [Live, hstatus, hended] at hid
    rw [hstatus]
    exact hs.active id hid

theorem Single.sent (hs : Single a h) (hfly : ¬ 0 < a.inflightOrderId) {h' : History}
    {id : OrderId} (hid : 0 < id) (hstatus : b.orderStatus = a.orderStatus.insert id .pendingSubmit)
    (hinflight : b.inflightOrderId = id) (hended : ∀ j, j ∈ h'.ended ↔ j ∈ h.ended ∧ j ≠ id) :
    Single b h' := by
  have honly : ∀ j, Live b h' j → j = id := by
    intro j hj
    by_contra hne
    rw [Live, hstatus, hended] at hj
    have hold : Live a h j :=
      ⟨((AList.mem_insert _).mp hj.1).resolve_left hne, fun he => hj.2 ⟨he, hne⟩⟩
    obtain ⟨hpos, hj'⟩ := hs.inflight j hold
    exact hfly (hj' ▸ hpos)
  refine ⟨fun j hj => ?_, fun j hj => ?_⟩
  · rw [honly j hj]
    exact ⟨hid, hinflight⟩
  · rw [honly j hj, hstatus]
    exact ⟨.pendingSubmit, AList.lookup_insert _, rfl⟩

theorem Single.fill (hs : Single a h) {d : OrderData} (hd : d.orderId ∈ a.orderStatus)
    (hend : endsOrder d = false) {h' : History} (hended : h'.ended = h.ended) :
    Single (a.fill d) h' := by
  have hlive : ∀ id, Live (a.fill d) h' id → Live a h id := by
    intro id hid
    rw [Live, hended] at hid
    refine ⟨?_, hid.2⟩
    obtain rfl | hmem := (AList.mem_insert _).mp hid.1
    · exact hd
    · exact hmem
  refine ⟨fun id hid => hs.inflight id (hlive id hid), fun id hid => ?_⟩
  simp only [AlgoEngine.fill, Table.lookup_insert_ite]
  split
  · have hactive := Bool.not_eq_eq_eq_not.mp hend
    simp only [Bool.not_false, Bool.and_eq_true] at hactive
    exact ⟨_, rfl, hactive.1⟩
  · exact hs.active id (hlive id hid)

theorem Single.ended (hs : Single a h) {d : OrderData}
    (hok : 0 < a.inflightOrderId → d.orderId = a.inflightOrderId) {h' : History}
    (hstatus : b.orderStatus = a.orderStatus.insert d.orderId d.status)
    (hended : h'.ended = d.orderId :: h.ended) : Single b h' := by
  have hnone : ∀ id, ¬ Live b h' id := by
    intro id hid
    rw [Live, hstatus, hended] at hid
    obtain ⟨hne, hopen⟩ := not_or.mp (List.mem_cons.not.mp hid.2)
    have hmem : id ∈ a.orderStatus := ((AList.mem_insert _).mp hid.1).resolve_left hne
    obtain ⟨hpos, hfly⟩ := hs.inflight id ⟨hmem, hopen⟩
    exact hne ((hok (hfly ▸ hpos)).trans hfly).symm
  exact ⟨fun id hid => absurd hid (hnone id), fun id hid => absurd hid (hnone id)⟩

theorem Single.handled (hs : Single a h) {e : Event} (hb : Handled a e b)
    (hok : ∀ d, e = .orderData d → d.orderId ∈ a.orderStatus → endsOrder d = true →
      0 < a.inflightOrderId → d.orderId = a.inflightOrderId) : Single b (h.note a b e) := by
  cases hb with
  | blocked hfly => exact hs.congr rfl rfl (by simp [History.note, hfly])
  | idle hfly => exact hs.congr rfl rfl (by simp [History.note, hfly])
  | sent hfly hid req quantity =>
    exact hs.sent hfly hid rfl rfl (by simp [History.note, hfly, AlgoEngine.inflight, hid])
  | unknown hd => exact hs.congr rfl rfl (by simp [History.note, hd])
  | active hd hend => exact hs.fill hd hend (by simp [History.note, hd, hend])
  | ended hd hend =>
    exact hs.ended (hok _ rfl hd hend) rfl (by simp [History.note, hd, hend])
  | other he hne reqs =>
    cases e with
    | orderData d => cases he
    | algoPosUpdate pos => exact absurd rfl (hne pos)
    | _ => exact hs.congr rfl rfl rfl

theorem Single.step {s t : System} {m : Move} (hs : Single s.engine s.history) (hok : Alone s m)
    (ht : (algo cfg).step s m = some t) : Single t.engine t.history := by
  obtain ⟨lastTick, e, r, rfl, hh, hr, rfl⟩ | ⟨_, ⟨_, _, he⟩, ⟨_, hn⟩⟩ := acted_or_around ht
  · exact hs.handled (handle_handled hr).1 fun d he hd => hok d (mem_handles.mpr ⟨he ▸ hh, hd⟩)
  · rw [he, hn]
    exact hs.congr rfl rfl rfl

theorem single {s : System} (hs : (algo cfg).Reaches Alone s) : Single s.engine s.history := by
  refine Machine.Reaches.invariant (I := fun s => Single s.engine s.history) ?_
    (fun _ _ _ _ h hok ht => h.step hok ht) hs
  exact ⟨fun id hid => absurd hid.1 (AList.notMem_empty id),
    fun id hid => absurd hid.1 (AList.notMem_empty id)⟩

/-- An order is live from its sending to the first event that ends it. As long
as no event ends another order while one is in flight, at most one order is
live, its last status is active and it is the one in flight. -/
theorem one_order_live {s : System} (hs : (algo cfg).Reaches Alone s) :
    (∀ id id', Live s.engine s.history id → Live s.engine s.history id' → id = id') ∧
    ∀ id, Live s.engine s.history id → s.engine.inflightOrderId = id ∧
      ∃ st, s.engine.orderStatus.lookup id = some st ∧ isActiveOrder st = true := by
  have h := single hs
  refine ⟨fun id id' hid hid' => ?_, fun id hid => ⟨(h.inflight id hid).2, h.active id hid⟩⟩
  rw [← (h.inflight id hid).2, ← (h.inflight id' hid').2]

def twoOrders : List Move :=
  [.start, .callback (.nextValidId 1), .listen ⟨"6758", 10, 0⟩, .pop, .act none,
    .callback (.orderStatus 1 "Filled" 10 25), .dispatch, .dispatch, .pop, .act none, .pop, .act none,
    .listen ⟨"6758", 30, 1⟩, .pop, .act none]

def secondSent : System :=
  ((algo sony).restrict fun s m => decide (Alone s m)).stateAfter twoOrders (by decide +kernel)

theorem one_order_live_second :
    Live secondSent.engine secondSent.history 2 ∧ secondSent.engine.inflightOrderId = 2 := by
  have hlive : Live secondSent.engine secondSent.history 2 := by decide +kernel
  exact ⟨hlive, ((one_order_live (Machine.reaches_stateAfter _)).2 2 hlive).1⟩

def statusActive (s : System) (id : OrderId) : Prop :=
  ∃ st, s.engine.orderStatus.lookup id = some st ∧ isActiveOrder st = true

/-- A warning on the first order frees the engine to send a second one. -/
def warned : List Move :=
  [.start, .callback (.nextValidId 1), .listen ⟨"6758", 10, 0⟩, .pop, .act none,
    .callback (.error { id := 1, errorCode := 399 }), .dispatch, .dispatch, .dispatch,
    .pop, .act none, .pop, .act none, .listen ⟨"6758", 30, 1⟩, .pop, .act none]

theorem two_orders_active :
    ¬ ∀ (cfg : Config) (s : System), (algo cfg).Reachable s →
      ∀ id id', statusActive s id → statusActive s id' → id = id' := by
  intro hall
  have hrun : (((algo sony).run (algo sony).init warned).map fun s =>
      (s.engine.orderStatus.lookup 1, s.engine.orderStatus.lookup 2)) =
        some (some .pendingSubmit, some .pendingSubmit) := by
    decide +kernel
  obtain ⟨s, hs, hstatus⟩ := Machine.exists_reachable_of_run hrun
  obtain ⟨h1, h2⟩ := Prod.mk.inj hstatus
  have hsame := hall sony s hs 1 2 ⟨_, h1, rfl⟩ ⟨_, h2, rfl⟩
  exact absurd hsame (by decide)

end CalmTrading.SingleOrder
