import CalmTrading.HistoricalData
import CalmTrading.Requests

namespace CalmTrading.Download

open Lib Objects Utils Gateway Requests HistoricalData

/-- Where `run` stands: before its start, at its loop guard, between sending a
request and recording its id, or after its end. -/
inductive Pc
  | idle
  | loop
  | sent (reqId : Int) (symbol : String)
  | done
  deriving DecidableEq

structure Runner where
  getter : HistBarGetter
  api : IBApi := {}
  pc : Pc := .idle

inductive RunMove
  | begin (order : List String)
  | send
  | register
  | finish

def histTimeFormat : Int := 2

/-- One step of `run`, with the requests that it sends. The pause between two
requests is left out. -/
def Runner.step (r : Runner) : RunMove → Option (Runner × List ClientMsg)
  | .begin order =>
    if r.pc = .idle ∧ order.Perm r.getter.symChunks.keys then
      some ({ r with getter := r.getter.begin order, pc := .loop }, [])
    else none
  | .send =>
    match r.pc, r.getter.q with
    | .loop, req :: rest =>
      if r.getter.remaining = 0 then none
      else
        (r.api.reqHistoricalBar req.symbol req.end req.dur req.barSize req.wts 1
            histTimeFormat).toOption.map fun (reqId, out) =>
          ({ getter := { r.getter with q := rest }, api := out.api, pc := .sent reqId req.symbol },
            out.client)
    | _, _ => none
  | .register =>
    match r.pc with
    | .sent reqId symbol =>
      some ({ r with getter := r.getter.register reqId symbol, pc := .loop }, [])
    | _ => none
  | .finish =>
    if r.pc = .loop ∧ r.getter.remaining = 0 then some ({ r with pc := .done }, []) else none

inductive Ran (r : Runner) : Runner → List ClientMsg → Prop
  | begin {order : List String} (hpc : r.pc = .idle)
      (horder : order.Perm r.getter.symChunks.keys) :
      Ran r { r with getter := r.getter.begin order, pc := .loop } []
  | send {req : IBHistBarReq} {rest : List IBHistBarReq} {contract : Contract} (hpc : r.pc = .loop)
      (hq : r.getter.q = req :: rest) :
      Ran r
        { getter := { r.getter with q := rest }
          api := { r.api with mReqId := r.api.mReqId + 1 }
          pc := .sent r.api.mReqId req.symbol }
        [.reqHistoricalData r.api.mReqId contract req.end req.dur req.barSize req.wts 1
          histTimeFormat]
  | register {reqId : Int} {symbol : String} (hpc : r.pc = .sent reqId symbol) :
      Ran r { r with getter := r.getter.register reqId symbol, pc := .loop } []
  | finish (hpc : r.pc = .loop) (hrem : r.getter.remaining = 0) : Ran r { r with pc := .done } []

theorem step_ran {r r' : Runner} {m : RunMove} {client : List ClientMsg}
    (h : r.step m = some (r', client)) : Ran r r' client := by
  cases m with
  | begin order =>
    simp only [Runner.step] at h
    split at h
    · next hb =>
      cases h
      exact .begin hb.1 hb.2
    · cases h
  | send =>
    simp only [Runner.step] at h
    split at h
    · next hpc hq =>
      split at h
      · cases h
      · obtain ⟨⟨reqId, out⟩, hout, heq⟩ := toOption_map_eq_some.mp h
        obtain ⟨rfl, contract, rfl⟩ := reqHistoricalBar_eq_ok hout
        cases heq
        exact .send hpc hq
    · cases h
  | register =>
    simp only [Runner.step] at h
    split at h
    · next hpc =>
      cases h
      exact .register hpc
    · cases h
  | finish =>
    simp only [Runner.step] at h
    split at h
    · next hf =>
      cases h
      exact .finish hf.1 hf.2
    · cases h

end CalmTrading.Download
