import CalmTrading.Gateway

namespace CalmTrading.HistoricalData

open Lib Objects Utils Gateway

structure HistBarReq where
  symbol : String
  start : String
  «end» : String
  tz : String
  wts : String
  savePath : String
  deriving DecidableEq

structure IBHistBarReq where
  symbol : String
  «end» : String
  dur : String
  barSize : String
  wts : String
  deriving DecidableEq

inductive HistBarStatus
  | inProg | success | error
  deriving DecidableEq

/-- The calendar functions of the date library: seconds of a local time, and
the two ways a time is written. -/
structure Calendar where
  parse : String → Int
  formatUtc : Int → String
  formatLocal : Int → String

/-- How saving a file ends: with an OK status, with another one, or with an
exception, which the event engine catches. -/
inductive Saving
  | ok | failed | threw
  deriving DecidableEq

/-- What `process_data` meets: the order that the unstable sort leaves the bars
in, and the result of writing the file. -/
structure Outcome where
  sorted : List HistBar := []
  saving : Saving := .ok
  deriving DecidableEq

/-- A call of `process_data`: the path of the file, the bars of the symbol, the rows
that are made of them, and how saving ends. -/
structure Save where
  symbol : String
  path : String
  merged : List HistBar
  rows : List HistBar
  saving : Saving
  deriving DecidableEq

/-- `remaining` is counted in the integers, so an underflow would show as a
negative number. `saves` is history, the calls of `process_data`, oldest first. -/
structure HistBarGetter where
  q : List IBHistBarReq := []
  symReq : Table String HistBarReq := ∅
  symChunks : Table String (List IBHistBarReq) := ∅
  symChunkId : Table String Nat := ∅
  symStatus : Table String HistBarStatus := ∅
  reqIdSym : Table Int String := ∅
  remaining : Int := 0
  symData : Table String (List HistBar) := ∅
  saves : List Save := []

/-- The length of the next chunk and the time where it ends. -/
def nextChunk (days tpEnd st : Int) : Int × String :=
  let en := st + days * 86400
  if en < tpEnd then (en, toString days ++ " D")
  else if tpEnd - st ≥ 86400 then
    let d := (tpEnd - st) / 86400
    (st + d * 86400, toString d ++ " D")
  else (tpEnd, toString (tpEnd - st) ++ " S")

/-- The loop of `generate_ib_reqs`, with one unit of fuel for each second. -/
def generateLoop (cal : Calendar) (barReq : HistBarReq) (days tpEnd : Int) :
    Nat → Int → Except Fault (List IBHistBarReq)
  | 0, st => if st < tpEnd then .error .outOfFuel else .ok []
  | fuel + 1, st =>
    if st < tpEnd then do
      let (en, dur) := nextChunk days tpEnd st
      let endStr :=
        if barReq.tz = "UTC" ∨ barReq.tz = "utc" then cal.formatUtc en
        else cal.formatLocal en ++ " " ++ barReq.tz
      let rest ← generateLoop cal barReq days tpEnd fuel en
      .ok (⟨barReq.symbol, endStr, dur, "5 secs", barReq.wts⟩ :: rest)
    else .ok []

def generateIbReqs (cal : Calendar) (barReq : HistBarReq) (days : Int) :
    Except Fault (List IBHistBarReq) :=
  let tpSt := cal.parse barReq.start
  let tpEnd := cal.parse barReq.end
  generateLoop cal barReq days tpEnd (tpEnd - tpSt).toNat tpSt

def uniqueFrom (last : HistBar) : List HistBar → List HistBar
  | [] => []
  | b :: rest => if last.time = b.time then uniqueFrom last rest else b :: uniqueFrom b rest

def unique : List HistBar → List HistBar
  | [] => []
  | b :: rest => b :: uniqueFrom b rest

/-- A result that sorting the bars by time may have. -/
def SortOf (data sorted : List HistBar) : Prop :=
  sorted.Perm data ∧ sorted.Pairwise fun a b => ¬ b.time < a.time

instance (data sorted : List HistBar) : Decidable (SortOf data sorted) :=
  inferInstanceAs (Decidable (_ ∧ _))

namespace HistBarGetter

def status (g : HistBarGetter) (symbol : String) : HistBarStatus :=
  (g.symStatus.lookup symbol).getD .inProg

def chunks (g : HistBarGetter) (symbol : String) : List IBHistBarReq :=
  (g.symChunks.lookup symbol).getD []

def chunkId (g : HistBarGetter) (symbol : String) : Nat := (g.symChunkId.lookup symbol).getD 0

def data (g : HistBarGetter) (symbol : String) : List HistBar := (g.symData.lookup symbol).getD []

def savePath (g : HistBarGetter) (symbol : String) : String :=
  (g.symReq.lookup symbol).elim "" HistBarReq.savePath

/-- The rows of the last file saved for a symbol. -/
def written (g : HistBarGetter) (symbol : String) : Option (List HistBar) :=
  (g.saves.reverse.find? fun w => w.symbol = symbol ∧ w.saving = .ok).map Save.rows

/-- One round of the loop of `init`. -/
def addReq (cal : Calendar) (days : Int) (g : HistBarGetter) (barReq : HistBarReq) :
    Except Fault HistBarGetter := do
  let g := { g with symReq := g.symReq.insert barReq.symbol barReq }
  let chunks ← generateIbReqs cal barReq days
  if chunks.isEmpty then .ok g
  else
    .ok
      { g with
        symChunks := g.symChunks.insert barReq.symbol chunks
        symChunkId := g.symChunkId.insert barReq.symbol 0 }

def init (cal : Calendar) (days : Int) (reqs : List HistBarReq) : Except Fault HistBarGetter := do
  let g ← reqs.foldlM (addReq cal days) {}
  .ok { g with remaining := g.symChunkId.keys.length }

/-- `run` starts with the first chunk of every symbol, in the order that the
hash map happens to have. -/
def begin (g : HistBarGetter) (order : List String) : HistBarGetter :=
  { g with q := g.q ++ order.filterMap fun symbol => (g.chunks symbol)[0]? }

def register (g : HistBarGetter) (reqId : Int) (symbol : String) : HistBarGetter :=
  { g with reqIdSym := g.reqIdSym.insert reqId symbol }

def processHistBar (g : HistBarGetter) (data : HistBar) : HistBarGetter :=
  match g.reqIdSym.lookup data.id with
  | none => g
  | some symbol => { g with symData := g.symData.insert symbol (g.data symbol ++ [data]) }

def setStatus (g : HistBarGetter) (symbol : String) (status : HistBarStatus) : HistBarGetter :=
  { g with symStatus := g.symStatus.insert symbol status }

/-- The bars are sorted and made unique in place before they are written. -/
def processData (g : HistBarGetter) (symbol : String) (outcome : Outcome) : HistBarGetter :=
  let rows := unique outcome.sorted
  { g with
    symData := g.symData.insert symbol rows
    saves := g.saves ++
      [{ symbol := symbol
         path := g.savePath symbol
         merged := g.data symbol
         rows := rows
         saving := outcome.saving }] }

/-- The branch of `process_hist_bar_end` for the last chunk of a symbol. -/
def complete (g : HistBarGetter) (symbol : String) (outcome : Outcome) : HistBarGetter :=
  let g := g.processData symbol outcome
  match outcome.saving with
  | .threw => g
  | .failed => g.setStatus symbol .error
  | .ok =>
    if g.status symbol = .inProg then
      { g.setStatus symbol .success with remaining := g.remaining - 1 }
    else g

def processHistBarEnd (g : HistBarGetter) (data : HistBarEnd) (outcome : Outcome) :
    Except Fault HistBarGetter :=
  match g.reqIdSym.lookup data.id with
  | none => .ok g
  | some symbol =>
    let g := { g with symChunkId := g.symChunkId.insert symbol (g.chunkId symbol + 1) }
    if g.chunkId symbol = (g.chunks symbol).length then .ok (g.complete symbol outcome)
    else
      match (g.chunks symbol)[g.chunkId symbol]? with
      | none => .error .outOfRange
      | some chunk => .ok { g with q := g.q ++ [chunk] }

def processErrMsg (g : HistBarGetter) (errMsg : ErrMsg) : HistBarGetter :=
  match g.reqIdSym.lookup errMsg.id with
  | none => g
  | some symbol =>
    let g :=
      if g.status symbol = .inProg then { g with remaining := g.remaining - 1 } else g
    g.setStatus symbol .error

def completes (g : HistBarGetter) (reqId : Int) : Option String :=
  (g.reqIdSym.lookup reqId).filter fun symbol =>
    g.chunkId symbol + 1 = (g.chunks symbol).length

/-- The bars are sorted in one of the ways that the sort may leave them. -/
def Admits (g : HistBarGetter) (data : HistBarEnd) (outcome : Outcome) : Prop :=
  ∀ symbol ∈ g.completes data.id, SortOf (g.data symbol) outcome.sorted

instance (g : HistBarGetter) (data : HistBarEnd) (outcome : Outcome) :
    Decidable (g.Admits data outcome) :=
  inferInstanceAs (Decidable (∀ symbol ∈ g.completes data.id, _))

end HistBarGetter

theorem mem_chunks {g : HistBarGetter} {symbol : String} {c : IBHistBarReq}
    (h : c ∈ g.chunks symbol) : ∃ cs, g.symChunks.lookup symbol = some cs ∧ c ∈ cs := by
  cases hcs : g.symChunks.lookup symbol with
  | none => simp [HistBarGetter.chunks, hcs] at h
  | some cs => exact ⟨cs, rfl, by simpa [HistBarGetter.chunks, hcs] using h⟩

/-- Removing equal neighbours keeps every time. -/
theorem mem_unique_time {l : List HistBar} {b : HistBar} (hb : b ∈ l) :
    ∃ row ∈ unique l, row.time = b.time := by
  have hfrom : ∀ (l : List HistBar) (last b : HistBar), b ∈ l →
      ∃ row ∈ last :: uniqueFrom last l, row.time = b.time := by
    intro l
    induction l with
    | nil => simp
    | cons c l ih =>
      intro last b hb
      by_cases hc : last.time = c.time
      · rw [uniqueFrom, if_pos hc]
        obtain rfl | hb := List.mem_cons.mp hb
        · exact ⟨last, List.mem_cons_self, hc⟩
        · exact ih last b hb
      · rw [uniqueFrom, if_neg hc]
        obtain rfl | hb := List.mem_cons.mp hb
        · exact ⟨b, by simp, rfl⟩
        · obtain ⟨row, hrow, htime⟩ := ih c b hb
          exact ⟨row, List.mem_cons_of_mem last hrow, htime⟩
  cases l with
  | nil => simp at hb
  | cons c l =>
    obtain rfl | hb := List.mem_cons.mp hb
    · exact ⟨b, List.mem_cons_self, rfl⟩
    · exact hfrom l c b hb

/-- The end of a request is unknown, leads to the next chunk of its symbol or
completes the symbol. -/
inductive Ended (g : HistBarGetter) (reqId : Int) (outcome : Outcome) : HistBarGetter → Prop
  | unknown (h : g.reqIdSym.lookup reqId = none) : Ended g reqId outcome g
  | next {symbol : String} {chunk : IBHistBarReq} (h : g.reqIdSym.lookup reqId = some symbol)
      (hlast : g.completes reqId = none)
      (hchunk : (g.chunks symbol)[g.chunkId symbol + 1]? = some chunk) :
      Ended g reqId outcome
        { g with
          symChunkId := g.symChunkId.insert symbol (g.chunkId symbol + 1)
          q := g.q ++ [chunk] }
  | last {symbol : String} (h : g.reqIdSym.lookup reqId = some symbol)
      (hlast : g.completes reqId = some symbol) :
      Ended g reqId outcome
        ({ g with symChunkId := g.symChunkId.insert symbol (g.chunkId symbol + 1) }.complete symbol
          outcome)

theorem processHistBarEnd_known {g : HistBarGetter} {data : HistBarEnd} {symbol : String}
    (hid : g.reqIdSym.lookup data.id = some symbol) (outcome : Outcome) :
    g.processHistBarEnd data outcome =
      if g.chunkId symbol + 1 = (g.chunks symbol).length then
        .ok ({ g with symChunkId := g.symChunkId.insert symbol (g.chunkId symbol + 1) }.complete
          symbol outcome)
      else
        match (g.chunks symbol)[g.chunkId symbol + 1]? with
        | none => .error .outOfRange
        | some chunk =>
          .ok
            { g with
              symChunkId := g.symChunkId.insert symbol (g.chunkId symbol + 1)
              q := g.q ++ [chunk] } := by
  have hcount : HistBarGetter.chunkId
      { g with symChunkId := g.symChunkId.insert symbol (g.chunkId symbol + 1) } symbol =
        g.chunkId symbol + 1 := by
    simp [HistBarGetter.chunkId]
  have hchunks : HistBarGetter.chunks
      { g with symChunkId := g.symChunkId.insert symbol (g.chunkId symbol + 1) } symbol =
        g.chunks symbol := rfl
  simp only [HistBarGetter.processHistBarEnd, hid, hcount, hchunks]

theorem processHistBarEnd_ended {g g' : HistBarGetter} {data : HistBarEnd} {outcome : Outcome}
    (h : g.processHistBarEnd data outcome = .ok g') : Ended g data.id outcome g' := by
  cases hid : g.reqIdSym.lookup data.id with
  | none =>
    rw [HistBarGetter.processHistBarEnd, hid] at h
    cases h
    exact .unknown hid
  | some symbol =>
    rw [processHistBarEnd_known hid] at h
    split at h
    · next hlast =>
      cases h
      exact .last hid (by simp [HistBarGetter.completes, hid, hlast])
    · next hlast =>
      split at h
      · cases h
      · next chunk hchunk =>
        cases h
        exact .next hid (by simp [HistBarGetter.completes, hid, hlast]) hchunk

/-- What completing a symbol leaves alone. -/
structure SameRequests (g g' : HistBarGetter) : Prop where
  symChunks : g'.symChunks = g.symChunks
  symChunkId : g'.symChunkId = g.symChunkId
  reqIdSym : g'.reqIdSym = g.reqIdSym
  q : g'.q = g.q

theorem SameRequests.chunkId {g g' : HistBarGetter} (h : SameRequests g g') (symbol : String) :
    g'.chunkId symbol = g.chunkId symbol := by
  rw [HistBarGetter.chunkId, h.symChunkId, HistBarGetter.chunkId]

theorem SameRequests.chunks {g g' : HistBarGetter} (h : SameRequests g g') (symbol : String) :
    g'.chunks symbol = g.chunks symbol := by
  rw [HistBarGetter.chunks, h.symChunks, HistBarGetter.chunks]

theorem complete_sameRequests (g : HistBarGetter) (symbol : String) (outcome : Outcome) :
    SameRequests g (g.complete symbol outcome) := by
  rw [HistBarGetter.complete]
  cases outcome.saving with
  | threw => exact ⟨rfl, rfl, rfl, rfl⟩
  | failed => exact ⟨rfl, rfl, rfl, rfl⟩
  | ok =>
    dsimp only
    split <;> exact ⟨rfl, rfl, rfl, rfl⟩

theorem complete_symData (g : HistBarGetter) (symbol : String) (outcome : Outcome) :
    (g.complete symbol outcome).symData = g.symData.insert symbol (unique outcome.sorted) := by
  rw [HistBarGetter.complete]
  cases outcome.saving with
  | threw => rfl
  | failed => rfl
  | ok =>
    dsimp only
    split <;> rfl

theorem processData_written (g : HistBarGetter) (symbol s : String) (outcome : Outcome) :
    (g.processData symbol outcome).written s =
      if symbol = s ∧ outcome.saving = .ok then some (unique outcome.sorted) else g.written s := by
  simp only [HistBarGetter.written, HistBarGetter.processData, List.reverse_append,
    List.reverse_singleton, List.singleton_append, List.find?_cons]
  split <;> simp_all

theorem complete_saves (g : HistBarGetter) (symbol : String) (outcome : Outcome) :
    (g.complete symbol outcome).saves = (g.processData symbol outcome).saves := by
  rw [HistBarGetter.complete]
  cases outcome.saving with
  | threw => rfl
  | failed => rfl
  | ok =>
    dsimp only
    split <;> rfl

/-- Completing a symbol makes it a success only if its file was written. -/
theorem complete_success {g : HistBarGetter} {symbol s : String} {outcome : Outcome}
    (h : (g.complete symbol outcome).status s = .success) :
    g.status s = .success ∧ (s ≠ symbol →
        (g.complete symbol outcome).written s = g.written s) ∨
      s = symbol ∧ (g.complete symbol outcome).written s = some (unique outcome.sorted) := by
  have hwritten : (g.complete symbol outcome).written s =
      (g.processData symbol outcome).written s := by
    rw [HistBarGetter.written, complete_saves, HistBarGetter.written]
  rw [hwritten, processData_written]
  by_cases hs : s = symbol ∧ outcome.saving = .ok
  · exact .inr ⟨hs.1, by rw [if_pos ⟨hs.1.symm, hs.2⟩]⟩
  · refine .inl ⟨?_, fun hne => by rw [if_neg fun h => hne h.1.symm]⟩
    rw [HistBarGetter.complete] at h
    cases hsaving : outcome.saving with
    | threw =>
      rw [hsaving] at h
      exact h
    | failed =>
      simp only [hsaving, HistBarGetter.status, HistBarGetter.setStatus,
        Table.lookup_insert_ite] at h
      split at h
      · cases h
      · exact h
    | ok =>
      have hne : s ≠ symbol := fun he => hs ⟨he, hsaving⟩
      simp only [hsaving] at h
      split at h
      · simpa [HistBarGetter.status, HistBarGetter.setStatus, HistBarGetter.processData, hne] using h
      · exact h

theorem processErrMsg_frame (g : HistBarGetter) (msg : ErrMsg) :
    g.processErrMsg msg = g ∨ ∃ symbol remaining,
      g.processErrMsg msg = { g.setStatus symbol .error with remaining := remaining } := by
  rw [HistBarGetter.processErrMsg]
  split
  · exact .inl rfl
  · dsimp only
    split <;> exact .inr ⟨_, _, rfl⟩

theorem processErrMsg_sameRequests (g : HistBarGetter) (msg : ErrMsg) :
    SameRequests g (g.processErrMsg msg) := by
  obtain h | ⟨symbol, remaining, h⟩ := processErrMsg_frame g msg <;>
    rw [h] <;> exact ⟨rfl, rfl, rfl, rfl⟩

theorem processErrMsg_symData (g : HistBarGetter) (msg : ErrMsg) :
    (g.processErrMsg msg).symData = g.symData := by
  obtain h | ⟨symbol, remaining, h⟩ := processErrMsg_frame g msg
  · rw [h]
  · rw [h]
    rfl

theorem processErrMsg_saves (g : HistBarGetter) (msg : ErrMsg) :
    (g.processErrMsg msg).saves = g.saves := by
  obtain h | ⟨symbol, remaining, h⟩ := processErrMsg_frame g msg
  · rw [h]
  · rw [h]
    rfl

theorem processErrMsg_success {g : HistBarGetter} {msg : ErrMsg} {s : String}
    (h : (g.processErrMsg msg).status s = .success) : g.status s = .success := by
  obtain he | ⟨symbol, remaining, he⟩ := processErrMsg_frame g msg <;> rw [he] at h
  · exact h
  · simp only [HistBarGetter.status, HistBarGetter.setStatus, Table.lookup_insert_ite] at h
    split at h
    · cases h
    · exact h

theorem processHistBar_frame (g : HistBarGetter) (bar : HistBar) :
    ∃ symData, g.processHistBar bar = { g with symData := symData } := by
  rw [HistBarGetter.processHistBar]
  split <;> exact ⟨_, rfl⟩

end CalmTrading.HistoricalData
