import CalmTrading.DateText
import CalmTrading.ChunkTiling

namespace CalmTrading.ChunkEnds

open Lib Lib.Gregorian Dates DateText HistoricalData HistoricalInit ChunkTiling

theorem padded_injective (width : Nat) : Function.Injective (padded width) := fun m n h => by
  rw [← value_padded width m, h, value_padded]

theorem not_mem_padded (width n : Nat) : '-' ∉ padded width n :=
  fun hmem => absurd (isDigit_padded hmem) (by decide)

theorem yearText_injective : Function.Injective yearText := by
  intro y z h
  rw [yearText, yearText] at h
  split at h <;> split at h
  · have hnat := padded_injective 4 (List.cons.inj h).2
    omega
  · exact absurd (h ▸ List.mem_cons_self) (not_mem_padded 4 z.toNat)
  · exact absurd (h ▸ List.mem_cons_self) (not_mem_padded 4 y.toNat)
  · have hnat := padded_injective 4 h
    omega

theorem padded_append_inj {width m n : Nat} {cs ds : List Char} (hwidth : 0 < width)
    (hm : m < 10 ^ width) (hn : n < 10 ^ width) (h : padded width m ++ cs = padded width n ++ ds) :
    m = n ∧ cs = ds := by
  have hlen : (padded width m).length = (padded width n).length := by
    rw [length_padded hm hwidth, length_padded hn hwidth]
  obtain ⟨hpadded, hrest⟩ := List.append_inj h hlen
  exact ⟨padded_injective width hpadded, hrest⟩

theorem compactText_eq {tp : Int} (h : InRange tp) (sep : Char) :
    compactText sep tp = yearText (fields tp).1.year.toInt ++ (padded 2 (fields tp).1.month ++
      (padded 2 (fields tp).1.day ++ sep :: (padded 2 (fields tp).2.h ++ ':' ::
        (padded 2 (fields tp).2.m ++ ':' :: padded 2 (fields tp).2.s)))) := by
  obtain ⟨⟨hok, -⟩, htod, -⟩ := fields_spec h
  simp [compactText, (TwoDigits.of_ok hok htod).text]

/-- The compact text of a time point tells which one it is. -/
theorem compactText_inj {sep : Char} {tp tp' : Int} (h : InRange tp) (h' : InRange tp')
    (heq : compactText sep tp = compactText sep tp') : tp = tp' := by
  obtain ⟨⟨hok, hdays⟩, htod, hduration⟩ := fields_spec h
  obtain ⟨⟨hok', hdays'⟩, htod', hduration'⟩ := fields_spec h'
  have htwo := TwoDigits.of_ok hok htod
  have htwo' := TwoDigits.of_ok hok' htod'
  rw [compactText_eq h, compactText_eq h'] at heq
  generalize (fields tp).1 = ymd at *
  generalize (fields tp).2 = tod at *
  generalize (fields tp').1 = ymd' at *
  generalize (fields tp').2 = tod' at *
  -- What follows the year always has the same length.
  obtain ⟨hyear, htail⟩ := List.append_inj' heq (by
    simp [length_padded htwo.month, length_padded htwo.day, length_padded htwo.h,
      length_padded htwo.m, length_padded htwo.s, length_padded htwo'.month,
      length_padded htwo'.day, length_padded htwo'.h, length_padded htwo'.m,
      length_padded htwo'.s])
  obtain ⟨hmonth, htail⟩ := padded_append_inj (by decide) htwo.month htwo'.month htail
  obtain ⟨hday, htail⟩ := padded_append_inj (by decide) htwo.day htwo'.day htail
  obtain ⟨hh, htail⟩ := padded_append_inj (by decide) htwo.h htwo'.h (List.cons.inj htail).2
  obtain ⟨hm, htail⟩ := padded_append_inj (by decide) htwo.m htwo'.m (List.cons.inj htail).2
  have hs := padded_injective 2 (List.cons.inj htail).2
  have hymd : ymd = ymd' := by
    obtain ⟨year, month, day⟩ := ymd
    obtain ⟨year', month', day'⟩ := ymd'
    obtain rfl := Int16.toInt_inj.mp (yearText_injective hyear)
    simp_all
  have htime : tod = tod' := by
    obtain ⟨hour, minute, second, neg⟩ := tod
    obtain ⟨hour', minute', second', neg'⟩ := tod'
    have hneg := htwo.neg
    have hneg' := htwo'.neg
    simp_all
  have hdate : tp / 86400 = tp' / 86400 := by rw [← hdays, ← hdays', hymd]
  have hclock : tp % 86400 = tp' % 86400 := by rw [← hduration, ← hduration', htime]
  omega

theorem endOf_inj {barReq : HistBarReq} {en en' : Int} (h : InRange en) (h' : InRange en')
    (heq : endOf dates barReq en = endOf dates barReq en') : en = en' := by
  rw [endOf, endOf] at heq
  split at heq
  · exact compactText_inj h h' (String.ofList_inj.mp heq)
  · have htext := (String.append_left_inj _).mp ((String.append_left_inj _).mp heq)
    exact compactText_inj h h' (String.ofList_inj.mp htext)

theorem Asks.ends {cal : Calendar} {barReq : HistBarReq} {spans : List (Int × Int)}
    {chunks : List IBHistBarReq} (h : List.Forall₂ (Asks cal barReq) spans chunks) :
    chunks.map (·.end) = spans.map fun span => endOf cal barReq span.2 := by
  induction h with
  | nil => rfl
  | cons hask h ih => rw [List.map_cons, List.map_cons, hask.end, ih]

/-- No two chunks of a request ask for bars to the same end, and the last of them
asks for bars to the end of the request. -/
theorem chunk_ends_distinct (barReq : HistBarReq) {days : Int} (hdays : 1 ≤ days) :
    ∃ chunks, generateIbReqs dates barReq days = .ok chunks ∧
      (chunks.map (·.end)).Nodup ∧
      ∀ hne : chunks ≠ [],
        (chunks.getLast hne).end = endOf dates barReq (dates.parse barReq.end) := by
  obtain ⟨chunks, hloop⟩ := generateIbReqs_returns dates barReq hdays
  obtain ⟨spans, hcut⟩ := generateLoop_cut hdays hloop
  have hends := Asks.ends hcut.asks
  have hrange : ∀ span ∈ spans, InRange span.2 := by
    intro span hspan
    obtain ⟨hlow, hhigh⟩ := hcut.tiles.lt_snd span hspan
    have hstart := parse_inYears barReq.start
    have hend := parse_inYears barReq.end
    have hyears : InYears (-999) 9999 span.2 :=
      ⟨hstart.1.trans hlow.le, hhigh.trans_lt (max_lt hstart.2 hend.2)⟩
    exact (hyears.year rfl rfl).1
  refine ⟨chunks, hloop, ?_, fun hne => ?_⟩
  · rw [hends, List.Nodup, List.pairwise_map]
    apply hcut.tiles.pairwise_snd.imp_of_mem
    intro span span' hspan hspan' hlt heq
    exact hlt.ne (endOf_inj (hrange span hspan) (hrange span' hspan') heq)
  · have hspans : spans ≠ [] := by
      rintro rfl
      exact hne (List.forall₂_nil_left_iff.mp hcut.asks)
    have hlater := mt hcut.tiles.eq_nil_iff.mpr hspans
    have hlast := hcut.tiles.getLast_snd hspans
    rw [max_eq_right (by omega)] at hlast
    calc (chunks.getLast hne).end
        = (chunks.map (·.end)).getLast (by simpa using hne) := by rw [List.getLast_map]
      _ = (spans.map fun span => endOf dates barReq span.2).getLast (by simpa using hspans) := by
        congr 1
      _ = endOf dates barReq (dates.parse barReq.end) := by rw [List.getLast_map, hlast]

theorem chunk_ends_distinct_sony :
    ∃ chunks, generateIbReqs dates sonyReq 2 = .ok chunks ∧ (chunks.map (·.end)).Nodup ∧
      ∀ hne : chunks ≠ [],
        (chunks.getLast hne).end = endOf dates sonyReq (dates.parse sonyReq.end) :=
  chunk_ends_distinct sonyReq (by decide)

end CalmTrading.ChunkEnds
