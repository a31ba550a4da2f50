import CalmTrading.AlgoSystem

namespace CalmTrading.PositionRequests

open Lib Objects Utils Gateway OrderRecords Risk Algo AlgoSystem

variable {cfg : Config}

def unretried (pos : PosUpdate) : PosUpdate := { pos with retry := false }

def posUpdate? : Event → Option PosUpdate
  | .algoPosUpdate pos => some pos
  | _ => none

def posUpdates (es : List Event) : List PosUpdate := es.filterMap posUpdate?

def waiting (s : System) : List PosUpdate := posUpdates (s.held.toList ++ s.engine.q)

def blocked (s : System) : Move → Option PosUpdate
  | .act _ => (s.held.bind posUpdate?).filter fun _ => 0 < s.engine.inflightOrderId
  | _ => none

/-- A blocked update goes back to a queue without updates. -/
def Alone (s : System) (a : Move) : Prop := ∀ pos ∈ blocked s a, posUpdates s.engine.q = []

instance (s : System) (a : Move) : Decidable (Alone s a) :=
  inferInstanceAs (Decidable (∀ pos ∈ blocked s a, posUpdates s.engine.q = []))

/-- What was applied and what waits make up what was received. -/
def Ordered (s : System) : Prop :=
  s.history.received = (s.history.applied ++ waiting s).map unretried

@[simp] theorem posUpdates_append (es fs : List Event) :
    posUpdates (es ++ fs) = posUpdates es ++ posUpdates fs := List.filterMap_append

@[simp] theorem posUpdates_cons (e : Event) (es : List Event) :
    posUpdates (e :: es) = (posUpdate? e).toList ++ posUpdates es := by
  cases h : posUpdate? e <;> simp [posUpdates, h]

@[simp] theorem posUpdates_nil : posUpdates [] = [] := rfl

theorem posUpdate?_eq_none {e : Event} (h : ∀ pos, e ≠ .algoPosUpdate pos) :
    posUpdate? e = none := by
  cases e with
  | algoPosUpdate pos => exact absurd rfl (h pos)
  | _ => rfl

theorem Ordered.same {s t : System} (h : Ordered s) (hhist : t.history = s.history)
    (hwaiting : waiting t = waiting s) : Ordered t := by
  rw [Ordered, hhist, hwaiting]
  exact h

theorem handled_ordered {a b : AlgoEngine} {e : Event} {hist : History} (hb : Handled a e b)
    (hreceived : hist.received =
      (hist.applied ++ ((posUpdate? e).toList ++ posUpdates a.q)).map unretried)
    (hok : ∀ pos, e = .algoPosUpdate pos → 0 < a.inflightOrderId → posUpdates a.q = []) :
    (hist.note a b e).received = ((hist.note a b e).applied ++ posUpdates b.q).map unretried := by
  cases hb with
  | blocked hfly =>
    have hq := hok _ rfl hfly
    simpa [History.note, hfly, posUpdate?, hq, unretried] using hreceived
  | idle hfly => simpa [History.note, hfly, posUpdate?] using hreceived
  | sent hfly hid req quantity =>
    simpa [History.note, hfly, AlgoEngine.inflight, hid, posUpdate?] using hreceived
  | unknown hd => simpa [History.note, hd, posUpdate?] using hreceived
  | active hd hend => simpa [History.note, hd, AlgoEngine.fill, posUpdate?] using hreceived
  | ended hd hend => simpa [History.note, hd, AlgoEngine.fill, posUpdate?] using hreceived
  | other he hne reqs =>
    cases e with
    | orderData d => cases he
    | algoPosUpdate pos => exact absurd rfl (hne pos)
    | _ => simpa [History.note, posUpdate?] using hreceived

theorem Ordered.listen {s : System} (h : Ordered s) (msg : PosMsg) : Ordered (s.listen msg) := by
  have hwaiting : waiting (s.listen msg) = waiting s ++
      [{ symbol := msg.symbol, pos := msg.pos, timestamp := msg.timestamp }] := by
    simp [waiting, System.listen, AlgoEngine.mqMessageCb, AlgoEngine.push, posUpdate?]
  rw [Ordered, hwaiting, ← List.append_assoc, List.map_append]
  exact congrArg (· ++ _) h

theorem Ordered.step {s t : System} {a : Move} (h : Ordered s) (hok : Alone s a)
    (ht : (algo cfg).step s a = some t) : Ordered t := by
  cases step_moved ht with
  | start => exact h
  | @listen msg _ => exact h.listen msg
  | callback _ => exact h
  | otherSend _ => exact h
  | reprice _ _ => exact h
  | post _ => exact h
  | @dispatch e rest _ =>
    refine h.same rfl ?_
    obtain hcb | ⟨hcb, hne⟩ := eventEngineCb_cases s.engine e
    · simp [waiting, hcb]
    · simp [waiting, hcb, AlgoEngine.push, posUpdate?_eq_none hne]
  | pop _ hheld hq => exact h.same rfl (by simp [waiting, hheld, hq])
  | @act lastTick e r hheld hr =>
    have hsplit : waiting s = (posUpdate? e).toList ++ posUpdates s.engine.q := by
      simp [waiting, hheld]
    have hreceived := h
    rw [Ordered, hsplit] at hreceived
    have hqueue : ∀ pos, e = .algoPosUpdate pos → 0 < s.engine.inflightOrderId →
        posUpdates s.engine.q = [] := by
      rintro pos rfl hfly
      exact hok pos (by simp [blocked, hheld, posUpdate?, hfly, Option.filter])
    simpa [Ordered, System.acted, waiting] using
      handled_ordered (handle_handled hr).1 hreceived hqueue

theorem ordered {s : System} (hs : (algo cfg).Reaches Alone s) : Ordered s := by
  have hinit : Ordered (algo cfg).init := rfl
  exact Machine.Reaches.invariant hinit (fun _ _ _ _ h hok ht => h.step hok ht) hs

/-- Updates are applied in the order they came, each at most once, as long as
no blocked update is pushed back behind another one. -/
theorem applied_prefix_received {s : System} (hs : (algo cfg).Reaches Alone s) :
    s.history.applied.map unretried <+: s.history.received := by
  have h := ordered hs
  rw [Ordered, List.map_append] at h
  rw [h]
  exact List.prefix_append _ _

def waited : List Move :=
  [.start, .callback (.nextValidId 1), .listen ⟨"6758", 10, 0⟩, .pop, .act none,
    .listen ⟨"6758", 30, 1⟩, .pop, .act none, .callback (.orderStatus 1 "Cancelled" 0 0),
    .dispatch, .dispatch, .pop, .act none, .pop, .act none, .pop, .act none, .pop, .act none]

def settled : System :=
  ((algo sony).restrict fun s a => decide (Alone s a)).stateAfter waited (by decide +kernel)

theorem applied_prefix_received_settled :
    settled.history.applied.map PosUpdate.pos = [10, 30] ∧
      settled.history.applied.map unretried <+: settled.history.received :=
  ⟨by decide +kernel, applied_prefix_received (Machine.reaches_stateAfter _)⟩

/-- The second update is popped, the order ends and the third update arrives
before the second one is pushed back. -/
def overtaken : List Move :=
  [.start, .callback (.nextValidId 1), .listen ⟨"6758", 10, 0⟩, .pop, .act none,
    .listen ⟨"6758", 20, 1⟩, .dispatch, .pop, .callback (.orderStatus 1 "Filled" 10 25), .dispatch,
    .listen ⟨"6758", 30, 2⟩, .act none, .pop, .act none, .pop, .act none, .pop, .act none]

theorem applied_out_of_order :
    ¬ ∀ (cfg : Config) (s : System), (algo cfg).Reachable s →
      s.history.applied.map unretried <+: s.history.received := by
  intro hall
  have hrun : (((algo sony).run (algo sony).init overtaken).map fun s =>
      (s.history.applied.map unretried, s.history.received)) =
        some ([⟨"6758", 10, 0, false⟩, ⟨"6758", 30, 2, false⟩],
          [⟨"6758", 10, 0, false⟩, ⟨"6758", 20, 1, false⟩, ⟨"6758", 30, 2, false⟩]) := by
    decide +kernel
  obtain ⟨s, hs, hupdates⟩ := Machine.exists_reachable_of_run hrun
  have hprefix := hall sony s hs
  obtain ⟨happlied, hreceived⟩ := Prod.mk.inj hupdates
  rw [happlied, hreceived] at hprefix
  exact absurd hprefix (by decide +kernel)

end CalmTrading.PositionRequests
