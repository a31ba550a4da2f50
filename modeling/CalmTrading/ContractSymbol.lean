import Mathlib.Data.List.Basic
import CalmTrading.Gateway

namespace CalmTrading.ContractSymbol

open Objects Utils Gateway

def parts (c : Char) (s : String) : List String := (s.toList.splitOn c).map String.ofList

theorem isPrefixOf_drop {s : List Char} {c : Char} {i : Nat} :
    [c].isPrefixOf (s.drop i) = true ↔ s[i]? = some c := by
  rw [← List.head?_drop]
  cases s.drop i with
  | nil => simp
  | cons d l =>
    rw [List.head?_cons, Option.some.injEq]
    simp only [List.isPrefixOf, Bool.and_true, beq_iff_eq]
    exact eq_comm

theorem find_eq_none {s : List Char} {c : Char} {pos : Nat} (h : find s [c] pos = none) :
    c ∉ s.drop pos := by
  intro hmem
  obtain ⟨i, hi⟩ := List.mem_iff_getElem?.mp hmem
  rw [List.getElem?_drop] at hi
  have hlt : pos + i < s.length := (List.getElem?_eq_some_iff.mp hi).1
  have hnone := List.find?_range_eq_none.mp h (pos + i) (by omega)
  simp only [Nat.le_add_right, decide_true, Bool.true_and, isPrefixOf_drop.mpr hi] at hnone
  cases hnone

theorem find_eq_some {s : List Char} {c : Char} {pos next : Nat}
    (h : find s [c] pos = some next) :
    pos ≤ next ∧ s[next]? = some c ∧ c ∉ (s.take next).drop pos := by
  obtain ⟨hp, _, hfirst⟩ := List.find?_range_eq_some.mp h
  rw [Bool.and_eq_true, decide_eq_true_eq, isPrefixOf_drop] at hp
  refine ⟨hp.1, hp.2, fun hmem => ?_⟩
  obtain ⟨i, hi⟩ := List.mem_iff_getElem?.mp hmem
  rw [List.getElem?_drop, List.getElem?_take] at hi
  split at hi
  · next hlt =>
    have hno := hfirst (pos + i) hlt
    simp only [Nat.le_add_right, decide_true, Bool.true_and, isPrefixOf_drop.mpr hi] at hno
    cases hno
  · cases hi

theorem drop_eq_of_find {s : List Char} {c : Char} {pos next : Nat} (hpos : pos ≤ next)
    (hc : s[next]? = some c) :
    s.drop pos = (s.take next).drop pos ++ c :: s.drop (next + 1) := by
  obtain ⟨hlt, rfl⟩ := List.getElem?_eq_some_iff.mp hc
  have hsplit : s = s.take next ++ s[next] :: s.drop (next + 1) := by
    rw [← List.drop_eq_getElem_cons hlt, List.take_append_drop]
  conv_lhs => rw [hsplit]
  rw [List.drop_append_of_le_length]
  rw [List.length_take]
  omega

/-- The loop always has enough fuel, and cuts at each delimiter. -/
theorem splitLoop_eq {s : List Char} {c : Char} {fuel last : Nat} (hlast : last ≤ s.length)
    (hfuel : s.length < last + fuel) :
    splitLoop s [c] fuel last = .ok (((s.drop last).splitOn c).map String.ofList) := by
  induction fuel generalizing last with
  | zero => omega
  | succ fuel ih =>
    rw [splitLoop]
    cases hfind : find s [c] last with
    | none =>
      simp only [substr, if_pos hlast, bind, Except.bind]
      rw [List.splitOn_eq_singleton (find_eq_none hfind)]
      rfl
    | some next =>
      obtain ⟨hle, hc, hfree⟩ := find_eq_some hfind
      have hlt : next < s.length := (List.getElem?_eq_some_iff.mp hc).1
      have hrest := @ih (next + 1) hlt (by omega)
      simp only [hrest, bind, Except.bind]
      rw [drop_eq_of_find hle hc, List.splitOn_append_cons_self_of_not_mem hfree]
      rfl

theorem split_eq (s : String) {delim : String} {c : Char} (h : delim.toList = [c]) :
    split s delim = .ok (parts c s) := by
  rw [split, h, splitLoop_eq (Nat.zero_le _) (by omega)]
  rfl

def text (c : Contract) : String :=
  c.symbol ++ "-" ++ c.secType ++ "-" ++ c.currency ++ "." ++ c.exchange

/-- What the form of a symbol leaves open: whether a part may be empty, and
whether the exchange, which stands behind the dot, may have dashes. -/
structure Reading where
  emptyParts : Bool
  dashedExchange : Bool

/-- The contract has the parts of a symbol string. -/
structure Reading.Holds (r : Reading) (c : Contract) : Prop where
  dotless : ∀ part ∈ [c.symbol, c.secType, c.currency, c.exchange], '.' ∉ part.toList
  dashless : ∀ part ∈ [c.symbol, c.secType, c.currency], '-' ∉ part.toList
  exchange : r.dashedExchange = false → '-' ∉ c.exchange.toList
  nonempty : r.emptyParts = false →
    ∀ part ∈ [c.symbol, c.secType, c.currency, c.exchange], part ≠ ""

def WellFormed (r : Reading) (s : String) : Prop := ∃ c, r.Holds c ∧ text c = s

/-- No part is looked up that is not there, a contract has the text that it was
made from, and a string that is not of the form gives none. -/
structure Parses (r : Reading) (s : String) : Prop where
  inRange : generateContract s ≠ .error .outOfRange
  faithful : ∀ c, generateContract s = .ok c → text c = s
  rejects : ¬ WellFormed r s → ∀ c, generateContract s ≠ .ok c

theorem generateContract_eq (s : String) :
    generateContract s = (do
      let fields ← field (parts '.' s) 0
      let exchange ← field (parts '.' s) 1
      let symbol ← field (parts '-' fields) 0
      let secType ← field (parts '-' fields) 1
      let curr ← field (parts '-' fields) 2
      .ok { symbol := symbol, secType := secType, currency := curr, exchange := exchange }) := by
  have hdash : ∀ fields, split fields "-" = .ok (parts '-' fields) := fun fields => split_eq fields rfl
  simp only [generateContract, split_eq s (show ".".toList = ['.'] from rfl), hdash]
  rfl

theorem field_total (fields : List String) (i : Nat) :
    field fields i = .error .outOfRange ∨ ∃ part, field fields i = .ok part := by
  rw [field]
  cases fields[i]? with
  | none => exact .inl rfl
  | some part => exact .inr ⟨part, rfl⟩

theorem bind_total {α β : Type} {x : Except Fault α} {f : α → Except Fault β}
    (hx : x = .error .outOfRange ∨ ∃ a, x = .ok a)
    (hf : ∀ a, f a = .error .outOfRange ∨ ∃ b, f a = .ok b) :
    (x >>= f) = .error .outOfRange ∨ ∃ b, (x >>= f) = .ok b := by
  obtain rfl | ⟨a, rfl⟩ := hx
  · exact .inl rfl
  · exact hf a

theorem generateContract_total (s : String) :
    generateContract s = .error .outOfRange ∨ ∃ c, generateContract s = .ok c := by
  rw [generateContract_eq]
  apply bind_total (field_total _ _)
  intro fields
  apply bind_total (field_total _ _)
  intro exchange
  apply bind_total (field_total _ _)
  intro symbol
  apply bind_total (field_total _ _)
  intro secType
  apply bind_total (field_total _ _)
  intro curr
  exact .inr ⟨_, rfl⟩

theorem parts_append {c : Char} {part rest : String} (h : c ∉ part.toList) {delim : String}
    (hdelim : delim.toList = [c]) : parts c (part ++ delim ++ rest) = part :: parts c rest := by
  simp only [parts, String.toList_append, hdelim, List.append_assoc, List.singleton_append]
  rw [List.splitOn_append_cons_self_of_not_mem h, List.map_cons, String.ofList_toList]

theorem parts_self {c : Char} {part : String} (h : c ∉ part.toList) : parts c part = [part] := by
  rw [parts, List.splitOn_eq_singleton h, List.map_singleton, String.ofList_toList]

/-- A well-formed symbol gives the contract whose text it is. -/
theorem generateContract_text {r : Reading} {c : Contract} (h : r.Holds c) :
    generateContract (text c) = .ok c := by
  have hdot : ∀ part ∈ [c.symbol, c.secType, c.currency, c.exchange], '.' ∉ part.toList := h.dotless
  have hdash := h.dashless
  simp only [List.mem_cons, List.not_mem_nil, or_false, forall_eq_or_imp, forall_eq] at hdot hdash
  obtain ⟨hsymbol, hsecType, hcurrency, hexchange⟩ := hdot
  obtain ⟨hsymbol', hsecType', hcurrency'⟩ := hdash
  have hhead : '.' ∉ (c.symbol ++ "-" ++ c.secType ++ "-" ++ c.currency).toList := by
    simp [String.toList_append, hsymbol, hsecType, hcurrency]
  have hparts : parts '.' (text c) =
      [c.symbol ++ "-" ++ c.secType ++ "-" ++ c.currency, c.exchange] := by
    rw [text, parts_append hhead rfl, parts_self hexchange]
  have hfields : parts '-' (c.symbol ++ "-" ++ c.secType ++ "-" ++ c.currency) =
      [c.symbol, c.secType, c.currency] := by
    have hassoc : c.symbol ++ "-" ++ c.secType ++ "-" ++ c.currency =
        c.symbol ++ "-" ++ (c.secType ++ "-" ++ c.currency) := by
      simp only [String.append_assoc]
    rw [hassoc, parts_append hsymbol' rfl, parts_append hsecType' rfl, parts_self hcurrency']
  rw [generateContract_eq, hparts]
  simp only [field, List.getElem?_cons_zero, List.getElem?_cons_succ, bind, Except.bind, hfields]

/-- A symbol is parsed safely and faithfully if and only if it is of the form,
whichever way that is read. -/
theorem parses_iff (r : Reading) (s : String) : Parses r s ↔ WellFormed r s := by
  constructor
  · intro h
    by_contra hform
    obtain hrange | ⟨c, hc⟩ := generateContract_total s
    · exact h.inRange hrange
    · exact h.rejects hform c hc
  · rintro ⟨c, hc, rfl⟩
    have hok := generateContract_text hc
    refine ⟨?_, fun c' hc' => ?_, fun hform => ?_⟩
    · rw [hok]
      exact fun he => by cases he
    · rw [hok] at hc'
      cases hc'
      rfl
    · exact absurd ⟨c, hc, rfl⟩ hform

/-- A symbol without an exchange. -/
theorem missing_exchange : ¬ ∀ (r : Reading) (s : String), Parses r s := by
  intro hall
  have hrange : generateContract "6758-STK-JPY" = .error .outOfRange := by decide +kernel
  exact (hall ⟨true, true⟩ "6758-STK-JPY").inRange hrange

end CalmTrading.ContractSymbol
