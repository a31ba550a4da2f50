import CalmTrading.Download
import CalmTrading.HistoricalInit
import CalmTrading.Lib.Machine

namespace CalmTrading.DownloadCount

open Lib Objects Utils Gateway HistoricalData HistoricalInit Download

/-- The thread of `run` and the callbacks, in any order and for any ids. -/
inductive Move
  | run (m : RunMove)
  | histBar (bar : HistBar)
  | histBarEnd (barEnd : HistBarEnd) (outcome : Outcome)
  | ibErrMsg (msg : ErrMsg)

def step (r : Runner) : Move → Option Runner
  | .run m => (r.step m).map Prod.fst
  | .histBar bar => some { r with getter := r.getter.processHistBar bar }
  | .histBarEnd barEnd outcome =>
    if r.getter.Admits barEnd outcome then
      (r.getter.processHistBarEnd barEnd outcome).toOption.map fun g => { r with getter := g }
    else none
  | .ibErrMsg msg => some { r with getter := r.getter.processErrMsg msg }

def download (g : HistBarGetter) : Machine Runner Move where
  init := { getter := g }
  step := step

inductive Moved (r : Runner) : Move → Runner → Prop
  | run {m : RunMove} {r' : Runner} {client : List ClientMsg} (hr : Ran r r' client) :
      Moved r (.run m) r'
  | histBar {bar : HistBar} (symData : Table String (List HistBar)) :
      Moved r (.histBar bar) { r with getter := { r.getter with symData := symData } }
  | histBarEnd {barEnd : HistBarEnd} {outcome : Outcome} {g : HistBarGetter}
      (hadmits : r.getter.Admits barEnd outcome) (hg : Ended r.getter barEnd.id outcome g) :
      Moved r (.histBarEnd barEnd outcome) { r with getter := g }
  | ibErrMsg (msg : ErrMsg) :
      Moved r (.ibErrMsg msg) { r with getter := r.getter.processErrMsg msg }

theorem step_moved {g : HistBarGetter} {r t : Runner} {a : Move}
    (ht : (download g).step r a = some t) : Moved r a t := by
  cases a with
  | run m =>
    obtain ⟨⟨r', client⟩, hr, rfl⟩ := Option.map_eq_some_iff.mp ht
    exact .run (step_ran hr)
  | histBar bar =>
    cases ht
    obtain ⟨symData, hbar⟩ := processHistBar_frame r.getter bar
    rw [hbar]
    exact .histBar symData
  | histBarEnd barEnd outcome =>
    simp only [download, step] at ht
    split at ht
    · next hadmits =>
      obtain ⟨g', hg, rfl⟩ := toOption_map_eq_some.mp ht
      exact .histBarEnd hadmits (processHistBarEnd_ended hg)
    · cases ht
  | ibErrMsg msg =>
    cases ht
    exact .ibErrMsg msg

def inProg (g : HistBarGetter) : Nat := g.symChunks.keys.countP fun s => g.status s = .inProg

/-- The counter is the number of symbols in progress, and the guard of `run`
fails exactly when there is none. -/
structure Tracked (r : Runner) : Prop where
  remaining : r.getter.remaining = inProg r.getter
  guard : r.getter.remaining = 0 ↔ ∀ s ∈ r.getter.symChunks, r.getter.status s ≠ .inProg

/-- The file of a symbol that is still in progress is saved. -/
def Saves (r : Runner) : Move → Prop
  | .histBarEnd barEnd outcome =>
    ∀ s ∈ r.getter.completes barEnd.id, r.getter.status s = .inProg → outcome.saving ≠ .failed
  | _ => True

instance : ∀ (r : Runner) (a : Move), Decidable (Saves r a)
  | r, .histBarEnd barEnd outcome =>
    inferInstanceAs (Decidable (∀ s ∈ r.getter.completes barEnd.id,
      r.getter.status s = .inProg → outcome.saving ≠ .failed))
  | _, .run _ | _, .histBar _ | _, .ibErrMsg _ => .isTrue trivial

/-- Everything queued, sent or registered is for a symbol with chunks. -/
structure Listed (r : Runner) : Prop where
  chunks : ∀ s cs, r.getter.symChunks.lookup s = some cs → ∀ c ∈ cs, c.symbol = s
  queue : ∀ c ∈ r.getter.q, c.symbol ∈ r.getter.symChunks
  registered : ∀ id s, r.getter.reqIdSym.lookup id = some s → s ∈ r.getter.symChunks
  sent : ∀ id s, r.pc = .sent id s → s ∈ r.getter.symChunks

theorem tracked_iff {r : Runner} : Tracked r ↔ r.getter.remaining = inProg r.getter := by
  refine ⟨Tracked.remaining, fun h => ⟨h, ?_⟩⟩
  rw [h, Int.natCast_eq_zero, inProg, List.countP_eq_zero]
  simp [AList.mem_keys]

theorem inProg_fresh {g : HistBarGetter} (hg : Fresh g) : inProg g = g.symChunks.keys.length := by
  rw [inProg, List.countP_eq_length]
  simp [HistBarGetter.status, hg.status]

theorem inProg_setStatus {g : HistBarGetter} {s : String} (hs : s ∈ g.symChunks)
    {st : HistBarStatus} (hst : st ≠ .inProg) :
    (inProg (g.setStatus s st) : Int) =
      if g.status s = .inProg then (inProg g : Int) - 1 else inProg g := by
  have hself : (g.setStatus s st).status s = st := by
    simp [HistBarGetter.status, HistBarGetter.setStatus]
  have hother : ∀ b, b ≠ s → (g.setStatus s st).status b = g.status b := by
    intro b hb
    simp [HistBarGetter.status, HistBarGetter.setStatus, hb]
  split
  · next hin =>
    have hdrop := Table.countP_drop (p := fun b => decide (g.status b = .inProg))
      (q := fun b => decide ((g.setStatus s st).status b = .inProg)) g.symChunks.keys_nodup
      (AList.mem_keys.mp hs) (by simpa using hin) (by simpa [hself] using hst)
      (fun b hb => by rw [hother b hb])
    change inProg (g.setStatus s st) + 1 = inProg g at hdrop
    omega
  · next hout =>
    have hsame : inProg (g.setStatus s st) = inProg g := by
      apply List.countP_congr
      intro b _
      by_cases hb : b = s
      · subst hb
        simp [hself, hst, hout]
      · rw [hother b hb]
    rw [hsame]

theorem processErrMsg_remaining {g : HistBarGetter} {msg : ErrMsg}
    (hreg : ∀ id s, g.reqIdSym.lookup id = some s → s ∈ g.symChunks)
    (hrem : g.remaining = inProg g) :
    (g.processErrMsg msg).remaining = inProg (g.processErrMsg msg) := by
  rw [HistBarGetter.processErrMsg]
  cases hid : g.reqIdSym.lookup msg.id with
  | none => exact hrem
  | some s =>
    have hcount := inProg_setStatus (hreg _ s hid) (by decide : HistBarStatus.error ≠ .inProg)
    by_cases hin : g.status s = .inProg
    · simp only [hin, if_true] at hcount ⊢
      exact (congrArg (· - 1) hrem).trans hcount.symm
    · simp only [hin, if_false] at hcount ⊢
      exact hrem.trans hcount.symm

theorem complete_remaining {g : HistBarGetter} {s : String} {outcome : Outcome}
    (hs : s ∈ g.symChunks) (hrem : g.remaining = inProg g) :
    (g.complete s outcome).remaining = inProg (g.complete s outcome) ↔
      (g.status s = .inProg → outcome.saving ≠ .failed) := by
  have hs' : s ∈ (g.processData s outcome).symChunks := hs
  have hrem' : (g.processData s outcome).remaining = inProg (g.processData s outcome) := hrem
  have hstatus : g.status s = (g.processData s outcome).status s := rfl
  rw [HistBarGetter.complete, hstatus]
  generalize g.processData s outcome = p at hs' hrem'
  cases outcome.saving with
  | threw => simpa using hrem'
  | failed =>
    have hcount := inProg_setStatus hs' (by decide : HistBarStatus.error ≠ .inProg)
    have hsame : (p.setStatus s .error).remaining = p.remaining := rfl
    simp only [hsame, hcount, hrem']
    split
    · next hin => exact iff_of_false (by omega) fun h => h hin rfl
    · next hout => exact iff_of_true rfl fun h => absurd h hout
  | ok =>
    have hcount := inProg_setStatus hs' (by decide : HistBarStatus.success ≠ .inProg)
    simp only [ne_eq, reduceCtorEq, not_false_eq_true, implies_true, iff_true]
    by_cases hin : p.status s = .inProg
    · rw [if_pos hin] at hcount ⊢
      exact (congrArg (· - 1) hrem').trans hcount.symm
    · rw [if_neg hin]
      exact hrem'

theorem Listed.chunk {r : Runner} (h : Listed r) {s : String} {i : Nat} {c : IBHistBarReq}
    (hc : (r.getter.chunks s)[i]? = some c) : c.symbol ∈ r.getter.symChunks := by
  obtain ⟨cs, hcs, hmem⟩ := mem_chunks (List.mem_of_getElem? hc)
  rw [h.chunks s cs hcs c hmem]
  exact Table.mem_iff_lookup.mpr ⟨cs, hcs⟩

/-- A callback that changes neither the chunks nor the registrations. -/
theorem Listed.callback {r : Runner} (h : Listed r) {g : HistBarGetter}
    (hchunks : g.symChunks = r.getter.symChunks) (hreg : g.reqIdSym = r.getter.reqIdSym)
    (hq : ∀ c ∈ g.q, c ∈ r.getter.q ∨ c.symbol ∈ r.getter.symChunks) :
    Listed { r with getter := g } where
  chunks := by
    rw [hchunks]
    exact h.chunks
  queue c hc := by
    rw [hchunks]
    exact (hq c hc).elim (h.queue c) id
  registered := by
    rw [hchunks, hreg]
    exact h.registered
  sent := by
    rw [hchunks]
    exact h.sent

theorem Listed.run {r r' : Runner} {client : List ClientMsg} (h : Listed r)
    (hr : Ran r r' client) : Listed r' := by
  cases hr with
  | begin hpc horder =>
    refine ⟨h.chunks, fun c hc => ?_, h.registered, by simp⟩
    obtain hc | hc := List.mem_append.mp hc
    · exact h.queue c hc
    · obtain ⟨s, _, hfirst⟩ := List.mem_filterMap.mp hc
      exact h.chunk hfirst
  | send hpc hq =>
    refine ⟨h.chunks, fun c hc => h.queue c (hq ▸ List.mem_cons_of_mem _ hc), h.registered, ?_⟩
    rintro id s ⟨rfl, rfl⟩
    exact h.queue _ (hq ▸ List.mem_cons_self)
  | register hpc =>
    refine ⟨h.chunks, h.queue, fun id s hid => ?_, by simp⟩
    simp only [HistBarGetter.register, Table.lookup_insert_ite] at hid
    split at hid
    · cases hid
      exact h.sent _ _ hpc
    · exact h.registered id s hid
  | finish hpc hrem => exact ⟨h.chunks, h.queue, h.registered, by simp⟩

theorem Listed.ended {r : Runner} (h : Listed r) {id : Int} {outcome : Outcome}
    {g : HistBarGetter} (hg : Ended r.getter id outcome g) : Listed { r with getter := g } := by
  cases hg with
  | unknown _ => exact h
  | next _ _ hchunk =>
    refine h.callback rfl rfl fun c hc => ?_
    obtain hc | hc := List.mem_append.mp hc
    · exact .inl hc
    · exact .inr (List.mem_singleton.mp hc ▸ h.chunk hchunk)
  | @last symbol _ _ =>
    have hsame := complete_sameRequests
      { r.getter with
        symChunkId := r.getter.symChunkId.insert symbol (r.getter.chunkId symbol + 1) }
      symbol outcome
    exact h.callback hsame.symChunks hsame.reqIdSym fun c hc => .inl (hsame.q ▸ hc)

theorem Listed.step {g : HistBarGetter} {r t : Runner} {a : Move} (h : Listed r)
    (ht : (download g).step r a = some t) : Listed t := by
  cases step_moved ht with
  | run hr => exact h.run hr
  | histBar symData => exact h.callback rfl rfl fun c hc => .inl hc
  | histBarEnd _ hg => exact h.ended hg
  | ibErrMsg msg =>
    have hsame := processErrMsg_sameRequests r.getter msg
    exact h.callback hsame.symChunks hsame.reqIdSym fun c hc => .inl (hsame.q ▸ hc)

theorem tracked_step {g : HistBarGetter} {r t : Runner} {a : Move} (h : Listed r)
    (hp : Tracked r) (ht : (download g).step r a = some t) : Tracked t ↔ Saves r a := by
  rw [tracked_iff]
  have hrem := hp.remaining
  cases step_moved ht with
  | run hr =>
    refine iff_of_true ?_ trivial
    cases hr <;> exact hrem
  | histBar symData => exact iff_of_true hrem trivial
  | histBarEnd _ hg =>
    cases hg with
    | unknown hid => exact iff_of_true hrem (by simp [Saves, HistBarGetter.completes, hid])
    | next _ hlast _ => exact iff_of_true hrem (by simp [Saves, hlast])
    | last hid hlast =>
      simp only [Saves, hlast, Option.mem_some_iff, forall_eq']
      exact complete_remaining (h.registered _ _ hid) hrem
  | ibErrMsg msg => exact iff_of_true (processErrMsg_remaining h.registered hrem) trivial

/-- The counter is right throughout exactly those runs in which saving never
fails for a symbol in progress. -/
theorem remaining_counts_iff {cal : Calendar} {days : Int} {reqs : List HistBarReq}
    {g : HistBarGetter} (hg : HistBarGetter.init cal days reqs = .ok g) (as : List Move) :
    (download g).StatesAll Tracked (download g).init as ↔
      (download g).StepsAll Saves (download g).init as := by
  obtain ⟨hfresh, hrem⟩ := init_fresh hg
  apply Machine.statesAll_iff_stepsAll (I := Listed)
  · exact fun _ _ _ h ht => h.step ht
  · exact fun _ _ _ h hp ht => tracked_step h hp ht
  · refine ⟨fun s cs hcs => (hfresh.chunks s cs hcs).2, ?_, ?_, ?_⟩
    · simp [download, hfresh.queue]
    · simp [download, hfresh.registered]
    · simp [download]
  · rw [tracked_iff]
    exact hrem.trans (congrArg Nat.cast (inProg_fresh hfresh).symm)

def saveWorks : List Move :=
  [.run (.begin ["6758-STK-JPY.TSEJ"]), .run .send, .run .register,
    .histBarEnd { id := 10000000 } {}, .run .finish]

theorem remaining_counts_saved :
    ((download sonyGetter).run (download sonyGetter).init saveWorks).isSome = true ∧
      (download sonyGetter).StatesAll Tracked (download sonyGetter).init saveWorks :=
  ⟨by decide +kernel, (remaining_counts_iff sonyGetter_init saveWorks).mpr (by decide +kernel)⟩

/-- Saving the only file fails, and the counter stays at one. -/
def saveFails : List Move :=
  [.run (.begin ["6758-STK-JPY.TSEJ"]), .run .send, .run .register,
    .histBarEnd { id := 10000000 } { saving := .failed }]

theorem remaining_off :
    ¬ ∀ (cal : Calendar) (days : Int) (reqs : List HistBarReq) (g : HistBarGetter),
      HistBarGetter.init cal days reqs = .ok g → ∀ r, (download g).Reachable r → Tracked r := by
  intro hall
  have hrun : (((download sonyGetter).run (download sonyGetter).init saveFails).map fun r =>
      (r.getter.remaining, inProg r.getter)) = some (1, 0) := by
    decide +kernel
  obtain ⟨r, hr, hcount⟩ := Machine.exists_reachable_of_run hrun
  obtain ⟨hone, hzero⟩ := Prod.mk.inj hcount
  have htracked := (hall _ _ _ _ sonyGetter_init r hr).remaining
  rw [hone, hzero] at htracked
  exact absurd htracked (by decide)

end CalmTrading.DownloadCount
