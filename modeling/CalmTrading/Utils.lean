import CalmTrading.Objects

namespace CalmTrading.Utils

open Objects

/-- The ways a call can end without returning: an exception that nobody
catches, or an operation whose behaviour C++ leaves undefined. -/
inductive Fault
  | outOfRange
  | overflow
  | nullPointer
  | latencyTooHigh
  | redisError
  | outOfFuel
  deriving DecidableEq

theorem bind_eq_ok {α β : Type} {x : Except Fault α} {f : α → Except Fault β} {b : β} :
    x >>= f = .ok b ↔ ∃ a, x = .ok a ∧ f a = .ok b := by
  cases x with
  | error e => simp [bind, Except.bind]
  | ok a => simp [bind, Except.bind]

theorem toOption_eq_some {α : Type} {x : Except Fault α} {a : α} :
    x.toOption = some a ↔ x = .ok a := by
  cases x with
  | error e => simp [Except.toOption]
  | ok b => simp [Except.toOption]

theorem toOption_map_eq_some {α β : Type} {x : Except Fault α} {f : α → β} {b : β} :
    x.toOption.map f = some b ↔ ∃ a, x = .ok a ∧ f a = b := by
  cases x with
  | error e => simp [Except.toOption]
  | ok a => simp [Except.toOption]

/-- `std::string::find`: the first position from `pos` on where `delim` occurs. -/
def find (s delim : List Char) (pos : Nat) : Option Nat :=
  (List.range (s.length + 1)).find? fun i => pos ≤ i && delim.isPrefixOf (s.drop i)

/-- `std::string::substr` to the end of the string. -/
def substr (s : List Char) (pos : Nat) : Except Fault (List Char) :=
  if pos ≤ s.length then .ok (s.drop pos) else .error .outOfRange

/-- The loop of `split`. Every round moves `last` forward, so one unit of fuel
for each position is enough. -/
def splitLoop (s delim : List Char) : Nat → Nat → Except Fault (List String)
  | 0, _ => .error .outOfFuel
  | fuel + 1, last =>
    match find s delim last with
    | some next => do
      let rest ← splitLoop s delim fuel (next + 1)
      .ok (String.ofList ((s.take next).drop last) :: rest)
    | none => do
      let piece ← substr s last
      .ok [String.ofList piece]

def split (s delim : String) : Except Fault (List String) :=
  splitLoop s.toList delim.toList (s.toList.length + 2) 0

def isUnsetDouble (num : Double) : Bool := num = unsetDouble

def isUnsetLlong (num : Int) : Bool := num = unsetLong

/-- `m_order_id++` and `m_req_id++`: the old value and the incremented one.
Incrementing the largest value of the type is undefined. -/
def postIncr (max n : Int) : Except Fault (Int × Int) :=
  if n = max then .error .overflow else .ok (n, n + 1)

theorem postIncr_eq_ok {max n : Int} {p : Int × Int} :
    postIncr max n = .ok p ↔ n ≠ max ∧ p = (n, n + 1) := by
  rw [postIncr]
  split
  · simp_all
  · simp_all [eq_comm]

end CalmTrading.Utils
