import CalmTrading.MessageReader

namespace CalmTrading.MessageWriter

open Lib Lib.Framing Lib.Bytes MessageReader

def apiSign : List UInt8 := [65, 80, 73, 0]

/-- A message with its length in place of the header that `prepareBuffer` left. A
message that is too long keeps the header as it was. -/
def encodeMsgLen (body : List UInt8) : List UInt8 :=
  if body.length > maxMsgLen then List.replicate 4 0 ++ body else htonl body.length ++ body

/-- The first message of a session, with the versions the client can speak. -/
def connectRequest : List UInt8 := apiSign ++ encodeMsgLen (bytes "v100..176")

/-- The history of a session: what was left in the buffer when it began, the
requests and all that was handed in, and the bytes that were taken for the socket. -/
structure Session where
  carried : List UInt8 := []
  requests : List (List UInt8) := []
  handed : List UInt8 := []
  wire : List UInt8 := []
  deriving DecidableEq

/-- The client socket with the buffer of its transport, which is the same in
every session. The last session that has ended comes first. -/
structure Writer where
  outBuffer : List UInt8 := []
  socketOK : Bool := false
  isConnected : Bool := false
  session : Session := {}
  past : List Session := []
  deriving DecidableEq

/-- What `::send` returns, and whether an error ends the connection. -/
structure Result where
  n : Int
  fatal : Bool := false

inductive Call
  | eConnect (res : Result)
  | request (body : List UInt8) (res : Result)
  | onSend (res : Result)
  | eDisconnect

namespace Writer

/-- `::send` of bytes, which may take only a part of them, and none on a socket
that is closed. -/
def send (w : Writer) (buf : List UInt8) (res : Result) : Option Writer :=
  if (res.n = -1 ∨ 0 ≤ res.n ∧ w.socketOK = true) ∧ res.n ≤ buf.length then
    some { w with session := { w.session with wire := w.session.wire ++ buf.take res.n.toNat } }
  else none

def cleanupBuffer (buffer : List UInt8) (processed : Nat) : List UInt8 :=
  if buffer = [] then buffer
  else if processed = 0 then buffer
  else if processed = buffer.length then []
  else buffer.drop processed

def sendBufferedData (w : Writer) (res : Result) : Option Writer :=
  if w.outBuffer = [] then some w
  else
    (w.send w.outBuffer res).map fun w =>
      if res.n ≤ 0 then w
      else { w with outBuffer := cleanupBuffer w.outBuffer res.n.toNat }

def bufferedSend (w : Writer) (buf : List UInt8) (res : Result) : Option Writer :=
  if buf = [] then some w
  else if w.outBuffer ≠ [] then
    { w with outBuffer := w.outBuffer ++ buf }.sendBufferedData res
  else
    (w.send buf res).map fun w =>
      if res.n < buf.length then
        { w with outBuffer := w.outBuffer ++ buf.drop (max res.n 0).toNat }
      else w

def eDisconnect (w : Writer) : Writer := { w with socketOK := false, isConnected := false }

def handleSocketError (w : Writer) (res : Result) : Writer :=
  if res.n = -1 ∧ res.fatal = true then w.eDisconnect else w

def handIn (w : Writer) (msg : List UInt8) : Writer :=
  { w with session := { w.session with handed := w.session.handed ++ msg } }

def closeAndSend (w : Writer) (msg : List UInt8) (res : Result) : Option Writer :=
  ((w.handIn msg).bufferedSend msg res).map fun w => w.handleSocketError res

def newSession (w : Writer) : Writer :=
  { w with
    socketOK := true, session := { carried := w.outBuffer }, past := w.session :: w.past }

def ask (w : Writer) (body : List UInt8) : Writer :=
  { w with session := { w.session with requests := w.session.requests ++ [body] } }

def step (w : Writer) : Call → Option Writer
  | .eConnect res =>
    if w.socketOK then some w
    else
      (w.newSession.closeAndSend connectRequest res).map fun w =>
        { w with isConnected := res.n ≠ -1 }
  | .request body res =>
    if w.isConnected then (w.ask body).closeAndSend (encodeMsgLen body) res else some w
  | .onSend res => (w.sendBufferedData res).map fun w => w.handleSocketError res
  | .eDisconnect => some w.eDisconnect

end Writer

def writer : Machine Writer Call where
  init := {}
  step := Writer.step

/-- What a session was handed has been taken for the socket, or is left over. -/
def Session.Leaves (s : Session) (left : List UInt8) : Prop :=
  s.wire ++ left = s.carried ++ s.handed

/-- A session is handed the connect request and then its requests. -/
def Session.Begun (s : Session) : Prop :=
  s.handed = connectRequest ++ s.requests.flatMap encodeMsgLen

/-- Each session carries what the one before has left over. -/
def Linked : List Session → List UInt8 → Prop
  | [], carried => carried = []
  | s :: past, carried => s.Leaves carried ∧ Linked past s.carried

/-- What sending changes. -/
structure Sends (w t : Writer) (buf : List UInt8) : Prop where
  carried : t.session.carried = w.session.carried
  requests : t.session.requests = w.session.requests
  handed : t.session.handed = w.session.handed
  past : t.past = w.past
  connected : t.isConnected = w.isConnected
  all : t.session.wire ++ t.outBuffer = w.session.wire ++ w.outBuffer ++ buf

theorem take_append_cleanupBuffer (buffer : List UInt8) (n : Nat) :
    buffer.take n ++ Writer.cleanupBuffer buffer n = buffer := by
  rw [Writer.cleanupBuffer]
  split
  · next h => simp [h]
  · split
    · next h => simp [h]
    · split
      · next h => simp [h]
      · exact List.take_append_drop n buffer

theorem sendBufferedData_sends {w t : Writer} {res : Result}
    (h : w.sendBufferedData res = some t) : Sends w t [] := by
  rw [Writer.sendBufferedData.eq_def] at h
  split at h
  · cases h
    exact ⟨rfl, rfl, rfl, rfl, rfl, (List.append_nil _).symm⟩
  · obtain ⟨u, hu, rfl⟩ := Option.map_eq_some_iff.mp h
    obtain ⟨-, heq⟩ := Option.ite_none_right_eq_some.mp hu
    obtain rfl := Option.some.inj heq
    split
    · next hn =>
      refine ⟨rfl, rfl, rfl, rfl, rfl, ?_⟩
      simp [Int.toNat_of_nonpos hn]
    · refine ⟨rfl, rfl, rfl, rfl, rfl, ?_⟩
      rw [List.append_nil, List.append_assoc, take_append_cleanupBuffer]

theorem bufferedSend_sends {w t : Writer} {buf : List UInt8} {res : Result}
    (h : w.bufferedSend buf res = some t) : Sends w t buf := by
  rw [Writer.bufferedSend.eq_def] at h
  split at h
  · next hbuf =>
    cases h
    exact ⟨rfl, rfl, rfl, rfl, rfl, by rw [hbuf, List.append_nil]⟩
  · split at h
    · have hsends := sendBufferedData_sends h
      refine ⟨hsends.carried, hsends.requests, hsends.handed, hsends.past,
        hsends.connected, hsends.all.trans ?_⟩
      rw [List.append_nil, List.append_assoc]
    · next hempty =>
      obtain ⟨u, hu, rfl⟩ := Option.map_eq_some_iff.mp h
      obtain ⟨⟨-, hle⟩, heq⟩ := Option.ite_none_right_eq_some.mp hu
      obtain rfl := Option.some.inj heq
      have hout : w.outBuffer = [] := not_not.mp hempty
      split
      · refine ⟨rfl, rfl, rfl, rfl, rfl, ?_⟩
        have hmax : (max res.n 0).toNat = res.n.toNat := by omega
        simp [hout, hmax]
      · refine ⟨rfl, rfl, rfl, rfl, rfl, ?_⟩
        have hall : buf.length ≤ res.n.toNat := by omega
        simp [hout, List.take_of_length_le hall]

/-- What holds of the sessions at any time. -/
structure Kept (w : Writer) : Prop where
  leaves : w.session.Leaves w.outBuffer
  linked : Linked w.past w.session.carried
  begun : w.isConnected = true → w.session.Begun

theorem handleSocketError_eq (w : Writer) (res : Result) :
    ∃ socketOK isConnected, (isConnected = true → w.isConnected = true) ∧
      w.handleSocketError res = { w with socketOK := socketOK, isConnected := isConnected } := by
  rw [Writer.handleSocketError]
  split
  · exact ⟨false, false, by simp, rfl⟩
  · exact ⟨w.socketOK, w.isConnected, id, rfl⟩

theorem Kept.handleSocketError {w : Writer} (h : Kept w) (res : Result) :
    Kept (w.handleSocketError res) := by
  obtain ⟨socketOK, isConnected, himp, heq⟩ := handleSocketError_eq w res
  rw [heq]
  exact ⟨h.leaves, h.linked, fun hconnected => h.begun (himp hconnected)⟩

theorem Kept.sends {w t : Writer} (h : Kept w) (hsends : Sends w t []) : Kept t := by
  obtain ⟨hcarried, hrequests, hhanded, hpast, hconnected, hall⟩ := hsends
  refine ⟨?_, ?_, fun hup => ?_⟩
  · rw [Session.Leaves, hall, List.append_nil, h.leaves, hcarried, hhanded]
  · rw [hpast, hcarried]
    exact h.linked
  · rw [Session.Begun, hhanded, hrequests]
    exact h.begun (hconnected ▸ hup)

/-- What is handed in is sent or kept. -/
theorem closeAndSend_kept {w t : Writer} {msg : List UInt8} {res : Result}
    (hleaves : w.session.Leaves w.outBuffer) (hlinked : Linked w.past w.session.carried)
    (hbegun : (w.handIn msg).session.Begun) (h : w.closeAndSend msg res = some t) :
    Kept t ∧ t.session.Begun := by
  obtain ⟨u, hu, rfl⟩ := Option.map_eq_some_iff.mp h
  obtain ⟨hcarried, hrequests, hhanded, hpast, -, hall⟩ := bufferedSend_sends hu
  have hup : u.session.Begun := by
    rw [Session.Begun, hhanded, hrequests]
    exact hbegun
  have hkept : Kept u := by
    refine ⟨?_, ?_, fun _ => hup⟩
    · rw [Session.Leaves, hall, hcarried, hhanded]
      simp only [Writer.handIn]
      rw [hleaves, List.append_assoc]
    · rw [hpast, hcarried]
      exact hlinked
  obtain ⟨socketOK, isConnected, -, heq⟩ := handleSocketError_eq u res
  refine ⟨hkept.handleSocketError res, ?_⟩
  rw [heq]
  exact hup

theorem step_kept {w t : Writer} {a : Call} (h : Kept w) (ht : w.step a = some t) : Kept t := by
  cases a with
  | eConnect res =>
    simp only [Writer.step] at ht
    split at ht
    · cases ht
      exact h
    · obtain ⟨u, hu, rfl⟩ := Option.map_eq_some_iff.mp ht
      have hnew : w.newSession.session.Leaves w.newSession.outBuffer := (List.append_nil _).symm
      have hbegun : (w.newSession.handIn connectRequest).session.Begun := (List.append_nil _).symm
      obtain ⟨hkept, hbegun⟩ := closeAndSend_kept hnew ⟨h.leaves, h.linked⟩ hbegun hu
      exact ⟨hkept.leaves, hkept.linked, fun _ => hbegun⟩
  | request body res =>
    simp only [Writer.step] at ht
    split at ht
    · next hup =>
      have hhanded : w.session.handed = _ := h.begun hup
      have hleaves : (w.ask body).session.Leaves (w.ask body).outBuffer := h.leaves
      have hbegun : ((w.ask body).handIn (encodeMsgLen body)).session.Begun := by
        simp [Session.Begun, Writer.ask, Writer.handIn, hhanded]
      exact (closeAndSend_kept hleaves h.linked hbegun ht).1
    · cases ht
      exact h
  | onSend res =>
    obtain ⟨u, hu, rfl⟩ := Option.map_eq_some_iff.mp ht
    exact (h.sends (sendBufferedData_sends hu)).handleSocketError res
  | eDisconnect =>
    cases ht
    exact ⟨h.leaves, h.linked, by simp [Writer.eDisconnect]⟩

theorem reachable_kept {w : Writer} (h : writer.Reachable w) : Kept w := by
  refine Machine.Reaches.invariant (I := Kept) ?_ ?_ h
  · exact ⟨rfl, rfl, by simp [writer]⟩
  · exact fun w a t _ hkept _ ht => step_kept hkept ht

theorem Linked.total {past : List Session} {carried : List UInt8} (h : Linked past carried) :
    past.reverse.flatMap Session.wire ++ carried = past.reverse.flatMap Session.handed := by
  induction past generalizing carried with
  | nil => exact h
  | cons s past ih =>
    obtain ⟨hleaves, hlinked⟩ := h
    rw [List.reverse_cons, List.flatMap_append, List.flatMap_append, List.flatMap_singleton,
      List.flatMap_singleton, List.append_assoc, hleaves, ← List.append_assoc, ih hlinked]

theorem exists_messages {requests : List (List UInt8)}
    (h : ∀ body ∈ requests, body ≠ [] ∧ body.length ≤ maxMsgLen) :
    ∃ ms : List tws.Message, requests = ms.map Message.data ∧
      requests.flatMap encodeMsgLen = stream ms := by
  induction requests with
  | nil => exact ⟨[], rfl, rfl⟩
  | cons body requests ih =>
    obtain ⟨hne, hle⟩ := h body List.mem_cons_self
    obtain ⟨ms, rfl, hstream⟩ := ih fun b hb => h b (List.mem_cons_of_mem body hb)
    refine ⟨⟨body, hne, hle⟩ :: ms, rfl, ?_⟩
    have hlen : encodeMsgLen body = htonl body.length ++ body := if_neg (not_lt.mpr hle)
    rw [List.flatMap_cons, hlen, hstream, stream_cons, List.append_assoc]
    rfl

/-- Whatever portions the sockets take and however often the client connects
again, no byte is lost, repeated or overtaken: what a session did not send is the
beginning of the next one. Where nothing was left over, TWS reads the requests of
the session in their order, each as it was sent. -/
theorem wire_in_order {w : Writer} (h : writer.Reachable w) :
    (w.past.reverse.flatMap Session.wire ++ (w.session.wire ++ w.outBuffer) =
        w.past.reverse.flatMap Session.handed ++ w.session.handed) ∧
      w.session.wire ++ w.outBuffer = w.session.carried ++ w.session.handed ∧
      (w.isConnected = true → w.session.carried = [] →
        (∀ body ∈ w.session.requests, body ≠ [] ∧ body.length ≤ maxMsgLen) →
        ∀ (ms : List tws.Message) (more : List UInt8),
          w.session.wire = connectRequest ++ (stream ms ++ more) →
          ∃ rest, w.session.requests = ms.map Message.data ++ rest) := by
  have hkept := reachable_kept h
  refine ⟨?_, hkept.leaves, fun hup hcarried hfits ms more hwire => ?_⟩
  · rw [hkept.leaves, ← List.append_assoc, hkept.linked.total]
  · obtain ⟨ns, hrequests, hstream⟩ := exists_messages hfits
    have hhanded : w.session.handed = _ := hkept.begun hup
    have hall := hkept.leaves
    rw [Session.Leaves, hcarried, hhanded, hwire, hstream, List.nil_append,
      List.append_assoc, List.append_assoc] at hall
    obtain ⟨rest, rfl, -⟩ := stream_prefix (List.append_cancel_left hall)
    exact ⟨rest.map Message.data, by rw [hrequests, List.map_append]⟩

def againRun : List Call :=
  [.eConnect ⟨17, false⟩, .request [49, 0] ⟨3, false⟩, .eDisconnect, .eConnect ⟨7, false⟩]

theorem againRun_isSome : (writer.run writer.init againRun).isSome = true := by decide +kernel

def againWriter : Writer := writer.stateAfter againRun againRun_isSome

def onceRun : List Call := [.eConnect ⟨17, false⟩, .request [49, 0] ⟨6, false⟩]

theorem onceRun_isSome : (writer.run writer.init onceRun).isSome = true := by decide +kernel

def onceWriter : Writer := writer.stateAfter onceRun onceRun_isSome

def onceMessage : tws.Message := ⟨[49, 0], by decide, by decide⟩

/-- The first run carries bytes over. In the second TWS can read the whole request. -/
theorem wire_in_order_again :
    (againWriter.session.wire = [2, 49, 0, 65, 80, 73, 0] ∧
      (againWriter.past.reverse.flatMap Session.wire ++
          (againWriter.session.wire ++ againWriter.outBuffer) =
        againWriter.past.reverse.flatMap Session.handed ++ againWriter.session.handed) ∧
      againWriter.session.wire ++ againWriter.outBuffer =
        againWriter.session.carried ++ againWriter.session.handed ∧
      (againWriter.isConnected = true → againWriter.session.carried = [] →
        (∀ body ∈ againWriter.session.requests, body ≠ [] ∧ body.length ≤ maxMsgLen) →
        ∀ (ms : List tws.Message) (more : List UInt8),
          againWriter.session.wire = connectRequest ++ (stream ms ++ more) →
          ∃ rest, againWriter.session.requests = ms.map Message.data ++ rest)) ∧
      onceWriter.session.wire = connectRequest ++ (stream [onceMessage] ++ []) ∧
      ∃ rest, onceWriter.session.requests = [onceMessage].map Message.data ++ rest := by
  have hwire : onceWriter.session.wire = connectRequest ++ (stream [onceMessage] ++ []) := by
    decide +kernel
  have honce := (wire_in_order (Machine.reachable_stateAfter onceRun_isSome)).2.2
    (by decide +kernel) (by decide +kernel) (by decide +kernel) [onceMessage] [] hwire
  exact ⟨⟨by decide +kernel, wire_in_order (Machine.reachable_stateAfter _)⟩, hwire, honce⟩

end CalmTrading.MessageWriter
