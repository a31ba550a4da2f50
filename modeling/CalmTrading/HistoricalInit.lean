import CalmTrading.HistoricalData

namespace CalmTrading.HistoricalInit

open Lib Objects Utils HistoricalData

/-- What `init` leaves: every symbol has chunks of its own and none is done. -/
structure Fresh (g : HistBarGetter) : Prop where
  chunks : ∀ symbol cs, g.symChunks.lookup symbol = some cs → cs ≠ [] ∧ ∀ c ∈ cs, c.symbol = symbol
  chunkId : ∀ symbol, g.chunkId symbol = 0
  symbols : ∀ symbol, symbol ∈ g.symChunkId ↔ symbol ∈ g.symChunks
  queue : g.q = []
  status : g.symStatus = ∅
  registered : g.reqIdSym = ∅
  symData : g.symData = ∅
  saves : g.saves = []

theorem generateLoop_symbol {cal : Calendar} {barReq : HistBarReq} {days tpEnd st : Int}
    {fuel : Nat} {chunks : List IBHistBarReq} (h : generateLoop cal barReq days tpEnd fuel st = .ok chunks) :
    ∀ c ∈ chunks, c.symbol = barReq.symbol := by
  induction fuel generalizing st chunks with
  | zero =>
    simp only [generateLoop] at h
    split at h <;> cases h
    simp
  | succ fuel ih =>
    simp only [generateLoop] at h
    split at h
    · obtain ⟨rest, hrest, hchunks⟩ := bind_eq_ok.mp h
      cases hchunks
      intro c hc
      obtain rfl | hc := List.mem_cons.mp hc
      · rfl
      · exact ih hrest c hc
    · cases h
      simp

theorem nextChunk_advances {days tpEnd st : Int} (hdays : 0 < days) (hst : st < tpEnd) :
    st < (nextChunk days tpEnd st).1 := by
  rw [nextChunk]
  dsimp only
  split
  · omega
  · split
    · dsimp only
      omega
    · exact hst

/-- With a window of a day or more the loop reaches the end. -/
theorem generateIbReqs_returns (cal : Calendar) (barReq : HistBarReq) {days : Int}
    (hdays : 0 < days) : ∃ chunks, generateIbReqs cal barReq days = .ok chunks := by
  have hloop : ∀ (tpEnd st : Int) (fuel : Nat), (tpEnd - st).toNat ≤ fuel →
      ∃ chunks, generateLoop cal barReq days tpEnd fuel st = .ok chunks := by
    intro tpEnd st fuel
    induction fuel generalizing st with
    | zero =>
      intro hfuel
      exact ⟨[], if_neg (by omega)⟩
    | succ fuel ih =>
      intro hfuel
      by_cases hst : st < tpEnd
      · have hnext := nextChunk_advances hdays hst
        obtain ⟨rest, hrest⟩ := ih (nextChunk days tpEnd st).1 (by omega)
        exact ⟨_, by simp only [generateLoop, if_pos hst, hrest, bind, Except.bind]; rfl⟩
      · exact ⟨[], by simp [generateLoop, hst]⟩
  exact hloop _ _ _ le_rfl

theorem Fresh.addReq {cal : Calendar} {days : Int} {g g' : HistBarGetter} {barReq : HistBarReq}
    (hg : Fresh g) (h : g.addReq cal days barReq = .ok g') : Fresh g' := by
  obtain ⟨chunks, hchunks, h⟩ := bind_eq_ok.mp h
  split at h
  · cases h
    exact { hg with }
  · next hne =>
    cases h
    refine { hg with chunks := ?_, chunkId := ?_, symbols := ?_ }
    · intro symbol cs hcs
      rw [Table.lookup_insert_ite] at hcs
      split at hcs
      · next hs =>
        cases hcs
        rw [hs]
        exact ⟨by simpa using hne, generateLoop_symbol hchunks⟩
      · exact hg.chunks symbol cs hcs
    · intro symbol
      rw [HistBarGetter.chunkId, Table.lookup_insert_ite]
      split
      · rfl
      · exact hg.chunkId symbol
    · intro symbol
      simp [hg.symbols symbol]

theorem foldlM_fresh {cal : Calendar} {days : Int} {reqs : List HistBarReq} {g g' : HistBarGetter}
    (hg : Fresh g) (h : reqs.foldlM (HistBarGetter.addReq cal days) g = .ok g') : Fresh g' := by
  induction reqs generalizing g with
  | nil =>
    cases h
    exact hg
  | cons barReq reqs ih =>
    rw [List.foldlM_cons] at h
    obtain ⟨g₁, hadd, h⟩ := bind_eq_ok.mp h
    exact ih (hg.addReq hadd) h

theorem init_fresh {cal : Calendar} {days : Int} {reqs : List HistBarReq} {g : HistBarGetter}
    (h : HistBarGetter.init cal days reqs = .ok g) :
    Fresh g ∧ g.remaining = g.symChunks.keys.length := by
  obtain ⟨g₀, hfold, h⟩ := bind_eq_ok.mp h
  have hempty : Fresh {} := by constructor <;> simp [HistBarGetter.chunkId]
  have hg := foldlM_fresh hempty hfold
  cases h
  refine ⟨{ hg with }, ?_⟩
  have hperm : g₀.symChunkId.keys.Perm g₀.symChunks.keys := by
    rw [List.perm_ext_iff_of_nodup g₀.symChunkId.keys_nodup g₀.symChunks.keys_nodup]
    intro symbol
    exact hg.symbols symbol
  exact congrArg Nat.cast hperm.length_eq

theorem init_returns (cal : Calendar) (reqs : List HistBarReq) {days : Int} (hdays : 0 < days) :
    ∃ g, HistBarGetter.init cal days reqs = .ok g := by
  have hfold : ∀ g : HistBarGetter, ∃ g', reqs.foldlM (HistBarGetter.addReq cal days) g = .ok g' := by
    induction reqs with
    | nil => exact fun g => ⟨g, rfl⟩
    | cons barReq reqs ih =>
      intro g
      obtain ⟨chunks, hchunks⟩ := generateIbReqs_returns cal barReq hdays
      have hadd : ∃ g₁, g.addReq cal days barReq = .ok g₁ := by
        simp only [HistBarGetter.addReq, hchunks, bind, Except.bind]
        split <;> exact ⟨_, rfl⟩
      obtain ⟨g₁, hadd⟩ := hadd
      obtain ⟨g', hg'⟩ := ih g₁
      exact ⟨g', by simpa [List.foldlM_cons, hadd, bind, Except.bind] using hg'⟩
  obtain ⟨g', hg'⟩ := hfold {}
  exact ⟨_, by simp only [HistBarGetter.init, hg', bind, Except.bind]; rfl⟩

/-- The calendar at the two times of one request. -/
def january : Calendar where
  parse s := if s = "2025-01-03 00:00:00" then 1735862400 else 1735866000
  formatUtc _ := "20250103-01:00:00"
  formatLocal _ := "20250103 01:00:00"

def sonyReq : HistBarReq where
  symbol := "6758-STK-JPY.TSEJ"
  start := "2025-01-03 00:00:00"
  «end» := "2025-01-03 01:00:00"
  tz := "UTC"
  wts := "TRADES"
  savePath := "./sony.csv"

def sonyGetter : HistBarGetter :=
  match HistBarGetter.init january 2 [sonyReq] with
  | .ok g => g
  | .error _ => {}

theorem sonyGetter_init : HistBarGetter.init january 2 [sonyReq] = .ok sonyGetter := by
  obtain ⟨g, hg⟩ := init_returns january [sonyReq] (by decide : (0 : Int) < 2)
  rw [sonyGetter, hg]

end CalmTrading.HistoricalInit
