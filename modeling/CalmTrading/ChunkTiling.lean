import Mathlib.Order.Lattice
import Mathlib.Algebra.Order.Group.Int
import CalmTrading.HistoricalInit
import CalmTrading.Lib.Tiling

namespace CalmTrading.ChunkTiling

open Lib Utils HistoricalData HistoricalInit

def DurOf (dur : String) (secs : Int) : Prop :=
  (∃ n : Int, 1 ≤ n ∧ dur = toString n ++ " D" ∧ secs = n * 86400) ∨
    (dur = toString secs ++ " S" ∧ 0 < secs ∧ secs < 86400)

def endOf (cal : Calendar) (barReq : HistBarReq) (en : Int) : String :=
  if barReq.tz = "UTC" ∨ barReq.tz = "utc" then cal.formatUtc en
  else cal.formatLocal en ++ " " ++ barReq.tz

/-- A chunk asks for the bars of a span of time. -/
structure Asks (cal : Calendar) (barReq : HistBarReq) (span : Int × Int) (chunk : IBHistBarReq) :
    Prop where
  symbol : chunk.symbol = barReq.symbol
  «end» : chunk.end = endOf cal barReq span.2
  dur : DurOf chunk.dur (span.2 - span.1)
  wts : chunk.wts = barReq.wts

/-- The chunks ask for spans that tile the time between two points, none of them
longer than the window. -/
structure Cut (cal : Calendar) (barReq : HistBarReq) (days tpSt tpEnd : Int)
    (spans : List (Int × Int)) (chunks : List IBHistBarReq) : Prop where
  tiles : Tiles tpSt (max tpSt tpEnd) spans
  asks : List.Forall₂ (Asks cal barReq) spans chunks
  window : ∀ span ∈ spans, 0 < span.2 - span.1 ∧ span.2 - span.1 ≤ days * 86400

theorem nextChunk_spec {days tpEnd st : Int} (hdays : 1 ≤ days) (hst : st < tpEnd) :
    (nextChunk days tpEnd st).1 ≤ tpEnd ∧ (nextChunk days tpEnd st).1 - st ≤ days * 86400 ∧
      DurOf (nextChunk days tpEnd st).2 ((nextChunk days tpEnd st).1 - st) := by
  rw [nextChunk]
  dsimp only
  split
  · exact ⟨by omega, by omega, .inl ⟨days, hdays, rfl, by omega⟩⟩
  · split
    · -- The whole days that are left are no more than the window.
      exact ⟨by omega, by omega, .inl ⟨_, by omega, rfl, by omega⟩⟩
    · exact ⟨le_rfl, by omega, .inr ⟨rfl, by omega, by omega⟩⟩

theorem Cut.nil (cal : Calendar) (barReq : HistBarReq) (days : Int) {st tpEnd : Int}
    (hst : ¬ st < tpEnd) : Cut cal barReq days st tpEnd [] [] := by
  refine ⟨?_, .nil, by simp⟩
  rw [max_eq_left (by omega)]
  exact .nil st

/-- The loop cuts what is left of the time. -/
theorem generateLoop_cut {cal : Calendar} {barReq : HistBarReq} {days tpEnd : Int}
    (hdays : 1 ≤ days) {fuel : Nat} {st : Int} {chunks : List IBHistBarReq}
    (h : generateLoop cal barReq days tpEnd fuel st = .ok chunks) :
    ∃ spans, Cut cal barReq days st tpEnd spans chunks := by
  induction fuel generalizing st chunks with
  | zero =>
    simp only [generateLoop] at h
    split at h
    · cases h
    · next hst =>
      cases h
      exact ⟨[], .nil cal barReq days hst⟩
  | succ fuel ih =>
    simp only [generateLoop] at h
    split at h
    · next hst =>
      obtain ⟨rest, hrest, hchunks⟩ := bind_eq_ok.mp h
      cases hchunks
      have hpos := nextChunk_advances hdays hst
      obtain ⟨hle, hwindow, hdur⟩ := nextChunk_spec hdays hst
      obtain ⟨spans, hcut⟩ := ih hrest
      refine ⟨(st, (nextChunk days tpEnd st).1) :: spans, ?_, ?_, ?_⟩
      · have htiles := hcut.tiles
        rw [max_eq_right hle] at htiles
        rw [max_eq_right hst.le]
        exact .cons hpos htiles
      · exact .cons ⟨rfl, rfl, hdur, rfl⟩ hcut.asks
      · intro span hspan
        obtain rfl | hspan := List.mem_cons.mp hspan
        · exact ⟨by dsimp only; omega, hwindow⟩
        · exact hcut.window span hspan
    · next hst =>
      cases h
      exact ⟨[], .nil cal barReq days hst⟩

/-- The chunks of a request tile the time from its start to its end exactly. -/
theorem chunks_tile_range (cal : Calendar) (barReq : HistBarReq) {days : Int} (hdays : 1 ≤ days) :
    ∃ spans chunks, generateIbReqs cal barReq days = .ok chunks ∧
      Cut cal barReq days (cal.parse barReq.start) (cal.parse barReq.end) spans chunks ∧
      (∀ t, cal.parse barReq.start ≤ t → t < cal.parse barReq.end →
        ∃! span, span ∈ spans ∧ span.1 ≤ t ∧ t < span.2) ∧
      (chunks = [] ↔ cal.parse barReq.end ≤ cal.parse barReq.start) := by
  obtain ⟨chunks, hloop⟩ := generateIbReqs_returns cal barReq hdays
  obtain ⟨spans, hcut⟩ := generateLoop_cut hdays hloop
  refine ⟨spans, chunks, hloop, hcut, ?_, ?_⟩
  · intro t hst hen
    exact hcut.tiles.existsUnique_mem hst (lt_max_of_lt_right hen)
  · have hnil : chunks = [] ↔ spans = [] := by
      rw [← List.length_eq_zero_iff, ← List.length_eq_zero_iff, hcut.asks.length_eq]
    rw [hnil, hcut.tiles.eq_nil_iff, max_le_iff]
    exact and_iff_right le_rfl

theorem chunks_tile_range_sony :
    ∃ spans chunks, generateIbReqs january sonyReq 2 = .ok chunks ∧
      Cut january sonyReq 2 1735862400 1735866000 spans chunks ∧
      (∀ t, 1735862400 ≤ t → t < 1735866000 → ∃! span, span ∈ spans ∧ span.1 ≤ t ∧ t < span.2) ∧
      (chunks = [] ↔ (1735866000 : Int) ≤ 1735862400) :=
  chunks_tile_range january sonyReq (by decide)

end CalmTrading.ChunkTiling
