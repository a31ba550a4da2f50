import CalmTrading.AlgoSystem
import CalmTrading.PortfolioBook

namespace CalmTrading.PositionAccounting

open Lib Objects Utils Gateway OrderRecords Risk Algo AlgoSystem PortfolioBook

variable {cfg : Config}

/-- The position is what the last events of the orders add up to. -/
def Accounted (s : System) : Prop :=
  s.engine.currPos = Table.total (fun _ d => signedQuantity d) s.history.booked

def fillOf (d : Option OrderData) : Double := d.elim 0 OrderData.tradedQuantity

/-- When an event is handled, the fill handled last for its order is the fill
handled last since an order was sent. -/
def Expected (s : System) (a : Move) : Prop :=
  ∀ d ∈ s.handles a, fillOf s.history.recent = fillOf (s.history.booked.lookup d.orderId)

/-- The counter of the engine is the fill handled last since an order was sent. -/
structure Counted (s : System) : Prop where
  traced : Traced s
  filled : s.engine.orderFilled = fillOf s.history.recent

theorem handled_filled {a b : AlgoEngine} {e : Event} {hist : History} (h : Handled a e b)
    (hf : a.orderFilled = fillOf hist.recent) : b.orderFilled = fillOf (hist.note a b e).recent := by
  cases h with
  | blocked hfly => simpa [History.note, hfly] using hf
  | idle hfly => simpa [History.note, hfly] using hf
  | sent hfly hid req quantity =>
    simp [History.note, hfly, AlgoEngine.inflight, hid, fillOf]
  | unknown hd => simpa [History.note, hd] using hf
  | active hd hend => simp [History.note, hd, AlgoEngine.fill, fillOf]
  | ended hd hend => simp [History.note, hd, AlgoEngine.fill, fillOf]
  | other he hpos reqs =>
    cases e with
    | orderData d => cases he
    | algoPosUpdate pos => exact absurd rfl (hpos pos)
    | _ => exact hf

theorem Counted.step {s t : System} {a : Move} (h : Counted s)
    (ht : (algo cfg).step s a = some t) : Counted t := by
  refine ⟨h.traced.step ht, ?_⟩
  obtain ⟨lastTick, e, r, rfl, _, hr, rfl⟩ | ⟨_, ⟨_, _, he⟩, ⟨_, hh⟩⟩ := acted_or_around ht
  · exact handled_filled (handle_handled hr).1 h.filled
  · rw [he, hh]
    exact h.filled

theorem sign_ne_zero (a : Action) : a.sign ≠ 0 := by
  cases a <;> decide +kernel

theorem fill_currPos (a : AlgoEngine) (d : OrderData) :
    (a.fill d).currPos = a.currPos + d.action.sign * (d.tradedQuantity - a.orderFilled) := by
  cases h : d.action with
  | buy => simp [AlgoEngine.fill, h, Action.sign]
  | sell =>
    simp only [AlgoEngine.fill, h, Action.sign, reduceCtorEq, if_false]
    ring

theorem total_booked {s : System} (h : Traced s) {d : OrderData}
    (hd : Known s.trading.api.orders d) :
    Table.total (fun _ d => signedQuantity d) (s.history.booked.insert d.orderId d) =
      Table.total (fun _ d => signedQuantity d) s.history.booked +
        d.action.sign * (d.tradedQuantity - fillOf (s.history.booked.lookup d.orderId)) := by
  rw [Table.total_insert]
  cases hr : s.history.booked.lookup d.orderId with
  | none => simp [signedQuantity, fillOf]
  | some r =>
    obtain ⟨hid, hknown⟩ := h.booked _ r hr
    have haction := (hd.same hknown hid).action
    simp only [Option.elim_some, signedQuantity, fillOf, haction]
    ring

theorem accounted_fill {s : System} (h : Counted s) (hp : Accounted s) {d : OrderData}
    (hd : Known s.trading.api.orders d) :
    (s.engine.fill d).currPos =
        Table.total (fun _ d => signedQuantity d) (s.history.booked.insert d.orderId d) ↔
      fillOf s.history.recent = fillOf (s.history.booked.lookup d.orderId) := by
  rw [fill_currPos, total_booked h.traced hd, h.filled, show s.engine.currPos = _ from hp]
  constructor
  · intro heq
    have hmul := mul_left_cancel₀ (sign_ne_zero d.action) (add_left_cancel heq)
    exact sub_right_inj.mp hmul
  · intro heq
    rw [heq]

theorem accounted_handled {s : System} {b : AlgoEngine} {e : Event} (h : Counted s)
    (hp : Accounted s) (hh : s.held = some e) (hb : Handled s.engine e b) :
    b.currPos = Table.total (fun _ d => signedQuantity d) (s.history.note s.engine b e).booked ↔
      ∀ d, e = .orderData d → d.orderId ∈ s.engine.orderStatus →
        fillOf s.history.recent = fillOf (s.history.booked.lookup d.orderId) := by
  have hknown : ∀ d, e = .orderData d → Known s.trading.api.orders d := by
    rintro d rfl
    exact h.traced.transit d (by simp [System.pipe, hh, Event.orderData?])
  have hpos : s.engine.currPos = Table.total (fun _ d => signedQuantity d) s.history.booked := hp
  cases hb with
  | blocked hfly => simpa [History.note, hfly] using hpos
  | idle hfly => simpa [History.note, hfly] using hpos
  | sent hfly hid req quantity =>
    simpa [History.note, hfly, AlgoEngine.inflight, hid] using hpos
  | unknown hd =>
    simp only [History.note, hd, if_false, Event.orderData.injEq]
    refine ⟨?_, fun _ => hpos⟩
    rintro _ d rfl hd'
    exact absurd hd' hd
  | active hd hend => simpa [History.note, hd] using accounted_fill h hp (hknown _ rfl)
  | ended hd hend => simpa [History.note, hd] using accounted_fill h hp (hknown _ rfl)
  | other he hne reqs =>
    cases e with
    | orderData d => cases he
    | algoPosUpdate pos => exact absurd rfl (hne pos)
    | _ => simpa [History.note] using hpos

theorem accounted_step {s t : System} {a : Move} (h : Counted s) (hp : Accounted s)
    (ht : (algo cfg).step s a = some t) : Accounted t ↔ Expected s a := by
  obtain ⟨lastTick, e, r, rfl, hh, hr, rfl⟩ | ⟨hnone, ⟨_, _, he⟩, ⟨_, hn⟩⟩ := acted_or_around ht
  · have hiff := accounted_handled h hp hh (handle_handled hr).1
    simp only [Expected, mem_handles, hh, Option.some.injEq, and_imp]
    exact hiff
  · have hsame : Accounted t := by
      rw [Accounted, he, hn]
      exact hp
    exact iff_of_true hsame (by simp [Expected, hnone])

/-- The position is right throughout exactly those runs in which every event
of an order finds the counter at that order's own fill. -/
theorem curr_pos_accounted_iff (cfg : Config) (as : List Move) :
    (algo cfg).StatesAll Accounted (algo cfg).init as ↔
      (algo cfg).StepsAll Expected (algo cfg).init as := by
  have htraced : Traced (algo cfg).init := traced .init
  apply Machine.statesAll_iff_stepsAll (I := Counted)
  · exact fun _ _ _ h ht => h.step ht
  · exact fun _ _ _ h hp ht => accounted_step h hp ht
  · exact ⟨htraced, rfl⟩
  · rfl

/-- The commission of the filled first order is reported when the second order
has been sent. -/
def lateCommission : List Move :=
  [.start, .callback (.nextValidId 1), .listen ⟨"6758", 10, 0⟩, .pop, .act none,
    .callback (.orderStatus 1 "Filled" 10 25), .dispatch, .dispatch, .pop, .act none, .pop, .act none,
    .listen ⟨"6758", 30, 1⟩, .pop, .act none, .callback (.openOrder 1 3), .dispatch, .dispatch,
    .pop, .act none, .pop, .act none]

theorem curr_pos_off :
    ¬ ∀ (cfg : Config) (s : System), (algo cfg).Reachable s → Accounted s := by
  intro hall
  have hrun : (((algo sony).run (algo sony).init lateCommission).map fun s =>
      (s.engine.currPos, Table.total (fun _ d => signedQuantity d) s.history.booked)) =
        some (20, 10) := by
    decide +kernel
  obtain ⟨s, hs, hpos⟩ := Machine.exists_reachable_of_run hrun
  have haccounted := hall sony s hs
  rw [Prod.mk.injEq] at hpos
  rw [Accounted, hpos.1, hpos.2] at haccounted
  exact absurd haccounted (by decide +kernel)

end CalmTrading.PositionAccounting
