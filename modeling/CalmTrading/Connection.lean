import CalmTrading.Gateway

namespace CalmTrading.Connection

open Objects Gateway

/-- An `IBApi` with its connection: whether it holds a reader, and whether the
socket of the client is open. -/
structure Client where
  api : IBApi := {}
  hasReader : Bool := false
  socketOK : Bool := false

namespace Client

def eDisconnect (c : Client) : Client := { c with socketOK := false }

/-- The new `EReader` takes the place of the old one, whose destructor calls
`eDisconnect`: by then the client has the socket of the new connection. -/
def replaceReader (c : Client) : Client :=
  { (if c.hasReader then c.eDisconnect else c) with hasReader := true }

/-- `connect`, where `connects` tells whether `eConnect` gets a connection. -/
def connect (c : Client) (connects : Bool) : Bool × Client :=
  if c.socketOK || !connects then (false, c)
  else (true, replaceReader { c with socketOK := true })

/-- `start` up to its wait. -/
def start (c : Client) (connects : Bool) : Client :=
  if c.api.running then c
  else
    let (bRes, c) := c.connect connects
    { c with api := c.api.start bRes }

def stop (c : Client) : Client :=
  if c.api.running then { c.eDisconnect with api := c.api.stop } else c

/-- What TWS gets of the calls of the client. Without a connection they only
report an error. -/
def placed (c : Client) (client : List ClientMsg) : List ClientMsg :=
  if c.socketOK then client else []

variable {c : Client}

theorem start_running (h : c.api.running = true) (connects : Bool) : c.start connects = c := by
  rw [start, if_pos h]

theorem start_api (c : Client) (connects : Bool) :
    ∃ bRes, (c.start connects).api = { c.api with running := bRes } := by
  by_cases hrunning : c.api.running = true
  · exact ⟨true, by rw [start_running hrunning, ← hrunning]⟩
  · refine ⟨(c.connect connects).1, ?_⟩
    have hapi : (c.connect connects).2.api = c.api := by
      rw [connect, replaceReader]
      split
      · rfl
      · cases hreader : c.hasReader <;> rfl
    simp [start, hrunning, hapi, IBApi.start]

theorem stop_api (c : Client) : c.stop.api = { c.api with running := false } := by
  by_cases hrunning : c.api.running = true
  · rw [stop, if_pos hrunning]
    rfl
  · rw [stop, if_neg hrunning, ← Bool.eq_false_iff.mpr hrunning]

theorem start_socketOK (hreader : c.hasReader = true) (hclosed : c.socketOK = false)
    (connects : Bool) :
    (c.start connects).hasReader = true ∧ (c.start connects).socketOK = false := by
  rw [start]
  split
  · exact ⟨hreader, hclosed⟩
  · cases connects <;> simp [connect, replaceReader, eDisconnect, hreader, hclosed]

theorem stop_socketOK (hclosed : c.socketOK = false) :
    c.stop.hasReader = c.hasReader ∧ c.stop.socketOK = false := by
  rw [stop]
  split
  · exact ⟨rfl, rfl⟩
  · exact ⟨rfl, hclosed⟩

end Client

end CalmTrading.Connection
