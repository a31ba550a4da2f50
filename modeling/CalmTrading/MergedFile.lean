import Mathlib.Data.String.Basic
import CalmTrading.HistoricalData
import CalmTrading.Lib.Decimal

namespace CalmTrading.MergedFile

open Lib Lib.Decimal Objects HistoricalData

def rows (g : HistBarGetter) (symbol : String) (outcome : Outcome) : List HistBar :=
  (g.processData symbol outcome).data symbol

/-- The rows go up in time, show the times of the bars and no others, and each is
one of the bars; to sort and merge them once more changes nothing. -/
structure Chronological (g : HistBarGetter) (symbol : String) (outcome : Outcome) : Prop where
  written : outcome.saving = .ok →
    (g.processData symbol outcome).written symbol = some (rows g symbol outcome)
  increasing : (rows g symbol outcome).Pairwise fun a b => value a.time < value b.time
  times : ∀ time, (∃ row ∈ rows g symbol outcome, row.time = time) ↔
    ∃ bar ∈ g.data symbol, bar.time = time
  bars : ∀ row ∈ rows g symbol outcome, row ∈ g.data symbol
  again : ∀ outcome' : Outcome, SortOf (rows g symbol outcome) outcome'.sorted →
    rows (g.processData symbol outcome) symbol outcome' = rows g symbol outcome

/-- A time with fewer digits comes before one with more, in the order of strings. -/
def ShorterFirst (bars : List HistBar) : Prop :=
  ∀ a ∈ bars, ∀ b ∈ bars, a.time.length < b.time.length → a.time < b.time

instance (bars : List HistBar) : Decidable (ShorterFirst bars) :=
  inferInstanceAs (Decidable (∀ a ∈ bars, ∀ b ∈ bars, a.time.length < b.time.length →
    a.time < b.time))

/-- The bars of a symbol are those that came for its requests, in that order. -/
theorem data_received (g : HistBarGetter) (bars : List HistBar) (symbol : String) :
    (bars.foldl HistBarGetter.processHistBar g).data symbol =
      g.data symbol ++ bars.filter fun bar => g.reqIdSym.lookup bar.id = some symbol := by
  induction bars generalizing g with
  | nil => simp
  | cons bar bars ih =>
    have hreg : (g.processHistBar bar).reqIdSym = g.reqIdSym := by
      rw [HistBarGetter.processHistBar]
      split <;> rfl
    have hdata : (g.processHistBar bar).data symbol =
        g.data symbol ++ if g.reqIdSym.lookup bar.id = some symbol then [bar] else [] := by
      cases hid : g.reqIdSym.lookup bar.id with
      | none => simp [HistBarGetter.processHistBar, hid]
      | some s =>
        by_cases hs : symbol = s
        · subst hs
          simp [HistBarGetter.processHistBar, HistBarGetter.data, hid]
        · simp [HistBarGetter.processHistBar, HistBarGetter.data, hid, hs, Ne.symm hs]
    rw [List.foldl_cons, ih, hreg, hdata, List.filter_cons, List.append_assoc]
    by_cases hid : g.reqIdSym.lookup bar.id = some symbol <;> simp [hid]

theorem rows_eq (g : HistBarGetter) (symbol : String) (outcome : Outcome) :
    rows g symbol outcome = unique outcome.sorted := by
  simp [rows, HistBarGetter.data, HistBarGetter.processData]

theorem uniqueFrom_sublist (last : HistBar) (l : List HistBar) : (uniqueFrom last l).Sublist l := by
  induction l generalizing last with
  | nil => exact .slnil
  | cons b l ih =>
    rw [uniqueFrom]
    split
    · exact (ih last).cons b
    · exact (ih b).cons_cons b

theorem unique_sublist (l : List HistBar) : (unique l).Sublist l := by
  cases l with
  | nil => exact .slnil
  | cons b l => exact (uniqueFrom_sublist b l).cons_cons b

/-- After a sort, what is left without equal neighbours goes up. -/
theorem uniqueFrom_increasing {last : HistBar} {l : List HistBar}
    (h : (last :: l).Pairwise fun a b => ¬ b.time < a.time) :
    (last :: uniqueFrom last l).Pairwise fun a b => a.time < b.time := by
  induction l generalizing last with
  | nil => exact List.pairwise_singleton _ _
  | cons b l ih =>
    obtain ⟨hlast, hb⟩ := List.pairwise_cons.mp h
    rw [uniqueFrom]
    split
    · next heq =>
      refine ih (List.pairwise_cons.mpr ⟨fun c hc => ?_, hb.of_cons⟩)
      exact hlast c (List.mem_cons_of_mem b hc)
    · next hne =>
      have hlt : last.time < b.time := by
        have hle := not_lt.mp (hlast b List.mem_cons_self)
        exact lt_of_le_of_ne hle hne
      have htail := ih hb
      refine List.pairwise_cons.mpr ⟨fun c hc => ?_, htail⟩
      obtain rfl | hc := List.mem_cons.mp hc
      · exact hlt
      · exact hlt.trans ((List.pairwise_cons.mp htail).1 c hc)

theorem unique_increasing {l : List HistBar} (h : l.Pairwise fun a b => ¬ b.time < a.time) :
    (unique l).Pairwise fun a b => a.time < b.time := by
  cases l with
  | nil => exact .nil
  | cons b l => exact uniqueFrom_increasing h

theorem uniqueFrom_eq_self {last : HistBar} {l : List HistBar}
    (h : (last :: l).Pairwise fun a b => a.time < b.time) : uniqueFrom last l = l := by
  induction l generalizing last with
  | nil => rfl
  | cons b l ih =>
    obtain ⟨hlast, hb⟩ := List.pairwise_cons.mp h
    rw [uniqueFrom, if_neg (hlast b List.mem_cons_self).ne, ih hb]

theorem unique_eq_self {l : List HistBar} (h : l.Pairwise fun a b => a.time < b.time) :
    unique l = l := by
  cases l with
  | nil => rfl
  | cons b l => rw [unique, uniqueFrom_eq_self h]

theorem sort_eq_self {l sorted : List HistBar} (h : l.Pairwise fun a b => a.time < b.time)
    (hsort : SortOf l sorted) : sorted = l := by
  have hnodup : (l.map HistBar.time).Nodup := by
    rw [List.Nodup, List.pairwise_map]
    exact h.imp fun hlt => hlt.ne
  refine hsort.1.eq_of_pairwise (fun a b ha hb hab hba => ?_) hsort.2 (h.imp fun hlt => hlt.asymm)
  have htime : a.time = b.time := le_antisymm (not_lt.mp hab) (not_lt.mp hba)
  exact List.inj_on_of_nodup_map hnodup (hsort.1.mem_iff.mp ha) hb htime

section

variable {g : HistBarGetter} {symbol : String} {outcome : Outcome}

theorem rows_increasing (hsort : SortOf (g.data symbol) outcome.sorted) :
    (rows g symbol outcome).Pairwise fun a b => a.time < b.time := by
  rw [rows_eq]
  exact unique_increasing hsort.2

theorem mem_data_of_mem_rows (hsort : SortOf (g.data symbol) outcome.sorted) {row : HistBar}
    (h : row ∈ rows g symbol outcome) : row ∈ g.data symbol := by
  rw [rows_eq] at h
  exact hsort.1.mem_iff.mp ((unique_sublist outcome.sorted).subset h)

theorem exists_row (hsort : SortOf (g.data symbol) outcome.sorted) {bar : HistBar}
    (h : bar ∈ g.data symbol) : ∃ row ∈ rows g symbol outcome, row.time = bar.time := by
  rw [rows_eq]
  exact mem_unique_time (hsort.1.mem_iff.mpr h)

theorem rows_again (hsort : SortOf (g.data symbol) outcome.sorted) {outcome' : Outcome}
    (hsort' : SortOf (rows g symbol outcome) outcome'.sorted) :
    rows (g.processData symbol outcome) symbol outcome' = rows g symbol outcome := by
  have hincreasing := rows_increasing hsort
  rw [rows_eq, sort_eq_self hincreasing hsort', unique_eq_self hincreasing]

theorem chronological_of_increasing (hsort : SortOf (g.data symbol) outcome.sorted)
    (h : (rows g symbol outcome).Pairwise fun a b => value a.time < value b.time) :
    Chronological g symbol outcome where
  written hok := by rw [processData_written, if_pos ⟨rfl, hok⟩, rows_eq]
  increasing := h
  times time := by
    constructor
    · rintro ⟨row, hrow, htime⟩
      exact ⟨row, mem_data_of_mem_rows hsort hrow, htime⟩
    · rintro ⟨bar, hbar, rfl⟩
      exact exists_row hsort hbar
  bars _ hrow := mem_data_of_mem_rows hsort hrow
  again _ hsort' := rows_again hsort hsort'

/-- The file is in order of time, whatever the sort does with equal times, exactly
if the order of strings has fewer digits first. -/
theorem chronological_iff (hdecimal : ∀ bar ∈ g.data symbol, IsDecimal bar.time)
    (hsort : SortOf (g.data symbol) outcome.sorted) :
    Chronological g symbol outcome ↔ ShorterFirst (g.data symbol) := by
  have hstrings := rows_increasing hsort
  constructor
  · intro h a ha b hb hlen
    obtain ⟨ra, hra, hta⟩ := exists_row hsort ha
    obtain ⟨rb, hrb, htb⟩ := exists_row hsort hb
    have hvalue := value_lt_of_length_lt (hdecimal a ha) (hdecimal b hb) hlen
    rw [← hta, ← htb] at hvalue ⊢
    -- Two rows stand in one order or the other, and both relations show it.
    have hboth : ∀ r ∈ rows g symbol outcome, ∀ r' ∈ rows g symbol outcome,
        (value r.time < value r'.time → r.time < r'.time) ∧
          (value r'.time < value r.time → r'.time < r.time) := by
      refine List.Pairwise.forall_of_forall_of_flip ?_ ?_ ?_
      · exact fun r _ => ⟨fun hlt => absurd hlt (lt_irrefl _), fun hlt => absurd hlt (lt_irrefl _)⟩
      · exact (h.increasing.and hstrings).imp fun hlt =>
          ⟨fun _ => hlt.2, fun hgt => absurd hgt hlt.1.asymm⟩
      · exact (h.increasing.and hstrings).imp fun hlt =>
          ⟨fun hgt => absurd hgt hlt.1.asymm, fun _ => hlt.2⟩
    exact (hboth ra hra rb hrb).1 hvalue
  · intro hshorter
    apply chronological_of_increasing hsort
    refine hstrings.imp_of_mem fun ha hb hlt => ?_
    have ha := mem_data_of_mem_rows hsort ha
    have hb := mem_data_of_mem_rows hsort hb
    exact (lt_iff_of_shorter_first (hdecimal _ ha) (hdecimal _ hb) (hshorter _ ha _ hb)
      (hshorter _ hb _ ha)).mp hlt

end

def barAt (id : Int) (time : String) : HistBar where
  id := id
  time := time
  high := 3364
  low := 3356
  «open» := 3360
  close := 3363
  wap := 3361
  volume := 100
  count := 12

def getterWith (bars : List HistBar) : HistBarGetter :=
  bars.foldl HistBarGetter.processHistBar
    ((HistBarGetter.register {} 1 "6758-STK-JPY.TSEJ").register 2 "6758-STK-JPY.TSEJ")

theorem getterWith_data {bars : List HistBar} (h : ∀ bar ∈ bars, bar.id = 1 ∨ bar.id = 2) :
    (getterWith bars).data "6758-STK-JPY.TSEJ" = bars := by
  rw [getterWith, data_received]
  refine (List.nil_append _).trans (List.filter_eq_self.mpr fun bar hbar => ?_)
  obtain hid | hid := h bar hbar <;> rw [hid] <;> decide +kernel

/-- The chunks overlap in one bar, and the later one came first. -/
def overlap : List HistBar :=
  [barAt 2 "1735866000", barAt 2 "1735866005", barAt 1 "1735862400", barAt 1 "1735866000"]

theorem chronological_overlap :
    Chronological (getterWith overlap) "6758-STK-JPY.TSEJ"
      { sorted := [barAt 1 "1735862400", barAt 1 "1735866000", barAt 2 "1735866000",
          barAt 2 "1735866005"] } := by
  refine (chronological_iff ?_ (by decide +kernel)).mpr (by decide +kernel)
  rw [getterWith_data (by decide)]
  intro bar hbar
  simp only [overlap, List.mem_cons, List.not_mem_nil, or_false] at hbar
  obtain rfl | rfl | rfl | rfl := hbar
  · exact ⟨1735866000, rfl⟩
  · exact ⟨1735866005, rfl⟩
  · exact ⟨1735862400, rfl⟩
  · exact ⟨1735866000, rfl⟩

/-- Ten digits come before nine. -/
theorem ten_digits_first :
    ¬ ∀ (g : HistBarGetter) (symbol : String) (outcome : Outcome),
      (∀ bar ∈ g.data symbol, IsDecimal bar.time) → SortOf (g.data symbol) outcome.sorted →
        Chronological g symbol outcome := by
  intro hall
  have hdata : (getterWith [barAt 1 "999999999", barAt 1 "1000000000"]).data
      "6758-STK-JPY.TSEJ" = [barAt 1 "999999999", barAt 1 "1000000000"] :=
    getterWith_data (by decide)
  have h := hall (getterWith [barAt 1 "999999999", barAt 1 "1000000000"]) "6758-STK-JPY.TSEJ"
    { sorted := [barAt 1 "1000000000", barAt 1 "999999999"] } ?_ (by decide +kernel)
  · have hincreasing := h.increasing
    rw [rows_eq] at hincreasing
    revert hincreasing
    decide +kernel
  · rw [hdata]
    intro bar hbar
    simp only [List.mem_cons, List.not_mem_nil, or_false] at hbar
    obtain rfl | rfl := hbar
    · exact ⟨999999999, rfl⟩
    · exact ⟨1000000000, rfl⟩

end CalmTrading.MergedFile
