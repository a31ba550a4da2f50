import Mathlib.Data.List.Induction
import CalmTrading.HistoricalInit

namespace CalmTrading.RequestVector

open Lib Utils HistoricalData HistoricalInit

def NonEmpty (cal : Calendar) (barReq : HistBarReq) : Prop :=
  cal.parse barReq.start < cal.parse barReq.end

instance (cal : Calendar) (barReq : HistBarReq) : Decidable (NonEmpty cal barReq) :=
  inferInstanceAs (Decidable (_ < _))

def chunksOf (cal : Calendar) (days : Int) (barReq : HistBarReq) : List IBHistBarReq :=
  (generateIbReqs cal barReq days).toOption.getD []

/-- The last request for a symbol, and the last of those with a range. -/
def lastReq (reqs : List HistBarReq) (symbol : String) : Option HistBarReq :=
  reqs.reverse.find? fun barReq => barReq.symbol = symbol

def lastNonEmpty (cal : Calendar) (reqs : List HistBarReq) (symbol : String) : Option HistBarReq :=
  reqs.reverse.find? fun barReq => barReq.symbol = symbol ∧ NonEmpty cal barReq

theorem generateLoop_eq_nil {cal : Calendar} {barReq : HistBarReq} {days tpEnd st : Int}
    {fuel : Nat} {chunks : List IBHistBarReq}
    (h : generateLoop cal barReq days tpEnd fuel st = .ok chunks) : chunks = [] ↔ ¬ st < tpEnd := by
  cases fuel with
  | zero =>
    simp only [generateLoop] at h
    split at h
    · cases h
    · next hst =>
      cases h
      exact iff_of_true rfl hst
  | succ fuel =>
    simp only [generateLoop] at h
    split at h
    · next hst =>
      obtain ⟨rest, _, h⟩ := bind_eq_ok.mp h
      cases h
      exact iff_of_false (List.cons_ne_nil _ _) (not_not.mpr hst)
    · next hst =>
      cases h
      exact iff_of_true rfl hst

/-- `sym_req` keeps the last request of a symbol, `sym_chunks` the chunks of the
last one with a range. -/
structure Keyed (cal : Calendar) (days : Int) (reqs : List HistBarReq) (g : HistBarGetter) :
    Prop where
  symReq : ∀ symbol, g.symReq.lookup symbol = lastReq reqs symbol
  symChunks : ∀ symbol,
    g.symChunks.lookup symbol = (lastNonEmpty cal reqs symbol).map (chunksOf cal days)

theorem Keyed.addReq {cal : Calendar} {days : Int} {reqs : List HistBarReq} {g g' : HistBarGetter}
    (hg : Keyed cal days reqs g) {barReq : HistBarReq} (h : g.addReq cal days barReq = .ok g') :
    Keyed cal days (reqs ++ [barReq]) g' := by
  obtain ⟨chunks, hchunks, h⟩ := bind_eq_ok.mp h
  have hempty : chunks = [] ↔ ¬ NonEmpty cal barReq := generateLoop_eq_nil hchunks
  have hof : chunksOf cal days barReq = chunks := by simp [chunksOf, hchunks, Except.toOption]
  have hreq : ∀ symbol, (g.symReq.insert barReq.symbol barReq).lookup symbol =
      lastReq (reqs ++ [barReq]) symbol := by
    intro symbol
    rw [Table.lookup_insert_ite, lastReq, List.reverse_concat, List.find?_cons]
    by_cases hs : symbol = barReq.symbol
    · simp [hs]
    · simp [hs, Ne.symm hs, hg.symReq symbol, lastReq]
  split at h
  · next hnil =>
    cases h
    refine ⟨hreq, fun symbol => ?_⟩
    have hnon : ¬ NonEmpty cal barReq := hempty.mp (List.isEmpty_iff.mp hnil)
    simp [hg.symChunks symbol, lastNonEmpty, hnon]
  · next hne =>
    cases h
    refine ⟨hreq, fun symbol => ?_⟩
    have hnon : NonEmpty cal barReq := by
      by_contra hnon
      exact hne (List.isEmpty_iff.mpr (hempty.mpr hnon))
    rw [Table.lookup_insert_ite, lastNonEmpty, List.reverse_concat, List.find?_cons]
    by_cases hs : symbol = barReq.symbol
    · simp [hs, hnon, hof]
    · simp [hs, Ne.symm hs, hg.symChunks symbol, lastNonEmpty]

theorem init_keyed {cal : Calendar} {days : Int} {reqs : List HistBarReq} {g : HistBarGetter}
    (h : HistBarGetter.init cal days reqs = .ok g) : Keyed cal days reqs g := by
  obtain ⟨g₀, hfold, h⟩ := bind_eq_ok.mp h
  cases h
  have hg : Keyed cal days reqs g₀ := by
    clear h
    induction reqs using List.reverseRecOn generalizing g₀ with
    | nil =>
      cases hfold
      exact ⟨fun _ => rfl, fun _ => rfl⟩
    | append_singleton reqs barReq ih =>
      rw [List.foldlM_append] at hfold
      obtain ⟨g₁, hfold, hadd⟩ := bind_eq_ok.mp hfold
      rw [List.foldlM_cons] at hadd
      obtain ⟨g₂, hadd, hsame⟩ := bind_eq_ok.mp hadd
      cases hsame
      exact (ih g₁ hfold).addReq hadd
  exact ⟨hg.symReq, hg.symChunks⟩

theorem mem_symChunks {cal : Calendar} {days : Int} {reqs : List HistBarReq} {g : HistBarGetter}
    (h : Keyed cal days reqs g) {symbol : String} :
    symbol ∈ g.symChunks ↔ ∃ barReq ∈ reqs, barReq.symbol = symbol ∧ NonEmpty cal barReq := by
  rw [Table.mem_iff_lookup, h.symChunks symbol, ← Option.isSome_iff_exists, Option.isSome_map,
    lastNonEmpty, List.find?_isSome]
  simp

end CalmTrading.RequestVector
