import CalmTrading.Lib.Bytes
import CalmTrading.Lib.Framing
import CalmTrading.Lib.Machine

namespace CalmTrading.MessageReader

open Lib Lib.Bytes Lib.Framing

def maxMsgLen : Nat := 0xFFFFFF

def inBufSize : Nat := 8192

def htonl (n : Nat) : List UInt8 := (toBytes 4 n).reverse

def ntohl (bs : List UInt8) : Int := (ofBytes bs.reverse : Int).bmod (2 ^ 32)

theorem ofBytes_htonl {n : Nat} (h : n ≤ maxMsgLen) : ofBytes (htonl n).reverse = n := by
  rw [htonl, List.reverse_reverse, ofBytes_toBytes]
  exact Nat.mod_eq_of_lt (Nat.lt_of_le_of_lt h (by decide))

theorem ntohl_eq {bs : List UInt8} (h : ofBytes bs.reverse ≤ maxMsgLen) :
    ntohl bs = ofBytes bs.reverse := by
  unfold ntohl
  rw [maxMsgLen] at h
  apply Int.bmod_eq_of_le <;> omega

theorem ntohl_htonl {n : Nat} (h : n ≤ maxMsgLen) : ntohl (htonl n) = n := by
  rw [ntohl_eq, ofBytes_htonl h]
  rwa [ofBytes_htonl h]

theorem ofBytes_zeros_le (bs cs : List UInt8) :
    ofBytes (bs ++ List.replicate cs.length 0).reverse ≤ ofBytes (bs ++ cs).reverse := by
  simp [ofBytes, Nat.ofDigits_append, Nat.ofDigits_replicate_zero]

/-- Messages as TWS sends them, each after its length. -/
def tws : Framing UInt8 where
  width := 4
  max := maxMsgLen
  header := htonl
  width_pos := by decide
  length_header n := by simp [htonl]
  header_inj hm hn h := by rw [← ofBytes_htonl hm, h, ofBytes_htonl hn]

/-- What a call of `bufferedRead` is for. -/
inductive Part
  | header | body
  deriving DecidableEq

/-- Where the reader's thread stands: at the loop of `readToQueue`, or in
`bufferedRead` with so many bytes to come after those it has. -/
inductive Place
  | loop
  | reading (part : Part) (size : Nat) (got : List UInt8)
  | stopped
  deriving DecidableEq

/-- The reader with its socket. History are the messages that TWS has sent, and
those that were taken from the queue. -/
structure Reader where
  buf : List UInt8 := []
  isAlive : Bool := true
  socketOK : Bool := true
  place : Place := .loop
  msgQueue : List (List UInt8) := []
  incoming : List UInt8 := []
  sent : List tws.Message := []
  taken : List (List UInt8) := []

/-- How `recv` ends: with bytes, with none to be had, or with the end of the
connection. -/
inductive Recv
  | bytes (n : Nat)
  | wouldBlock
  | closed

/-- How `select` ends. A socket that is ready may be so only for writing. -/
inductive Poll
  | timeout
  | failed
  | ready (recv : Option Recv)

inductive Move
  | send (m : tws.Message)
  | turn
  | poll (p : Poll)
  | getMsg
  | eDisconnect
  | destroy

def resize (n : Nat) (bs : List UInt8) : List UInt8 :=
  bs.take n ++ List.replicate (n - bs.length) 0

namespace Reader

/-- The buffer keeps its full size when nothing was received. -/
def onReceive (r : Reader) : Recv → Option Reader
  | .bytes n =>
    if 0 < n ∧ n ≤ r.incoming.length ∧ n ≤ inBufSize - r.buf.length then
      some { r with buf := r.buf ++ r.incoming.take n, incoming := r.incoming.drop n }
    else none
  | .wouldBlock => some { r with buf := resize inBufSize r.buf }
  | .closed => some { r with buf := resize inBufSize r.buf, socketOK := false }

def processNonBlockingSelect (r : Reader) (p : Poll) : Option (Reader × Bool) :=
  if r.socketOK then
    match p with
    | .timeout => some (r, false)
    | .failed => some ({ r with socketOK := false }, false)
    | .ready none => some (r, true)
    | .ready (some recv) => (r.onReceive recv).map fun r => (r, true)
  else some (r, false)

/-- `readSingleMsg` begins with the header. -/
def putMessageToQueue (r : Reader) : Reader :=
  { r with place := if r.socketOK then .reading .header 4 [] else .stopped }

/-- What `readSingleMsg` does with the bytes it has read. -/
def finish (r : Reader) (part : Part) (bytes : List UInt8) : Reader :=
  match part with
  | .header =>
    let msgSize := ntohl bytes
    if msgSize ≤ 0 ∨ msgSize > maxMsgLen then { r with place := .stopped }
    else { r with place := .reading .body msgSize.toNat [] }
  | .body => { r with msgQueue := r.msgQueue ++ [bytes], place := .loop }

/-- What `bufferedRead` takes from the buffer in one round. -/
def consume (r : Reader) (part : Part) (size : Nat) (got : List UInt8) : Reader :=
  let nBytes := min inBufSize size
  let got := got ++ r.buf.take nBytes
  let r := { r with buf := r.buf.drop nBytes }
  if size - nBytes = 0 then r.finish part got
  else { r with place := .reading part (size - nBytes) got }

def Short (r : Reader) (size : Nat) : Prop := r.buf.length < size ∧ r.buf.length < inBufSize

instance (r : Reader) (size : Nat) : Decidable (r.Short size) :=
  inferInstanceAs (Decidable (_ ∧ _))

/-- A step of the thread that does not ask the socket. -/
def turn (r : Reader) : Option Reader :=
  match r.place with
  | .loop =>
    if r.isAlive then if r.buf = [] then none else some r.putMessageToQueue
    else some { r with place := .stopped }
  | .reading part size got => if r.Short size then none else some (r.consume part size got)
  | .stopped => none

def poll (r : Reader) (p : Poll) : Option Reader :=
  match r.place with
  | .loop =>
    if r.isAlive ∧ r.buf = [] then
      (r.processNonBlockingSelect p).map fun q =>
        if !q.2 && q.1.socketOK then q.1 else q.1.putMessageToQueue
    else none
  | .reading _ size _ =>
    if r.Short size then
      (r.processNonBlockingSelect p).map fun q =>
        if !q.2 && !q.1.socketOK then { q.1 with place := .stopped } else q.1
    else none
  | .stopped => none

def getMsg (r : Reader) : Option Reader :=
  match r.msgQueue with
  | [] => none
  | msg :: rest => some { r with msgQueue := rest, taken := r.taken ++ [msg] }

def step (r : Reader) : Move → Option Reader
  | .send m =>
    some { r with sent := r.sent ++ [m], incoming := r.incoming ++ frame m }
  | .turn => r.turn
  | .poll p => r.poll p
  | .getMsg => r.getMsg
  | .eDisconnect => some { r with socketOK := false }
  | .destroy => some { r with isAlive := false }

def delivered (r : Reader) : List (List UInt8) := r.taken ++ r.msgQueue

end Reader

def reader : Machine Reader Move where
  init := {}
  step := Reader.step

/-- Whenever `select` finds the socket readable there are bytes to be had, or the
connection has ended. -/
def Prompt (_ : Reader) (a : Move) : Prop := a ≠ .poll (.ready (some .wouldBlock))

/-- What is queued for a message of which only a part came before the connection
ended: zeros in place of the rest, or only zeros. -/
inductive CutShort (m : tws.Message) : List UInt8 → Prop
  | body (k : Nat) (hk : k < m.data.length) :
      CutShort m (m.data.take k ++ List.replicate (m.data.length - k) 0)
  | header (n : Nat) (hn : n ≤ m.data.length) : CutShort m (List.replicate n 0)

namespace Reader

def begun (r : Reader) : List UInt8 :=
  match r.place with
  | .reading .header _ got => got
  | .reading .body size got => htonl (got.length + size) ++ got
  | .loop | .stopped => []

end Reader

theorem Reader.begun_header {r : Reader} {size : Nat} {got : List UInt8}
    (h : r.place = .reading .header size got) : r.begun = got := by
  simp only [begun, h]

theorem Reader.begun_body {r : Reader} {size : Nat} {got : List UInt8}
    (h : r.place = .reading .body size got) : r.begun = htonl (got.length + size) ++ got := by
  simp only [begun, h]

/-- A header is asked for all at once, and a message is not too long. -/
def Place.Valid : Place → Prop
  | .reading .header size got => size = 4 ∧ got = []
  | .reading .body size got => 0 < size ∧ got.length + size ≤ maxMsgLen
  | .loop => True
  | .stopped => False

/-- The messages that were queued as they were sent, and those that were not yet. -/
structure Split (r : Reader) (ms rest : List tws.Message) (more : List (List UInt8)) : Prop where
  sent : r.sent = ms ++ rest
  delivered : r.delivered = ms.map Message.data ++ more

/-- The bytes that were sent and are not in a queued message. -/
structure Whole (r : Reader) (rest : List tws.Message) : Prop where
  place : r.place.Valid
  buf : r.buf.length ≤ inBufSize
  stream : stream rest = r.begun ++ (r.buf ++ r.incoming)

/-- What a reader of a closed connection makes of the bytes of its buffer. -/
inductive Cut (r : Reader) (rest : List tws.Message) : Prop
  | header {bs : List UInt8} (hplace : r.place = .reading .header 4 [])
      (hbuf : r.buf = bs ++ List.replicate (inBufSize - bs.length) 0) (hlen : bs.length < 4)
      (hbs : bs = [] ∨ ∃ m more cs, rest = m :: more ∧ htonl m.data.length = bs ++ cs)
  | body {size : Nat} {got : List UInt8} (hplace : r.place = .reading .body size got)
      (hsize : 0 < size) (hbuf : r.buf.length ≤ inBufSize)
      (hcut : size ≤ r.buf.length →
        ∃ m more, rest = m :: more ∧ CutShort m (got ++ r.buf.take size))

/-- What the reader has come to. -/
inductive Phase (r : Reader) : Prop
  | whole {ms rest : List tws.Message} (hsplit : Split r ms rest []) (hwhole : Whole r rest)
  | stopped {ms rest : List tws.Message} (hsplit : Split r ms rest []) (hplace : r.place = .stopped)
      (hend : r.socketOK = false ∨ r.isAlive = false)
  | cut {ms rest : List tws.Message} (hsplit : Split r ms rest []) (hcut : Cut r rest)
      (hend : r.socketOK = false)
  | queued {ms more : List tws.Message} {m : tws.Message} {x : List UInt8}
      (hsplit : Split r ms (m :: more) [x]) (hx : CutShort m x) (hend : r.socketOK = false)
      (hplace : r.place = .loop ∨ r.place = .stopped)

/-- What `select` and `recv` change. -/
inductive Selected (r : Reader) : Reader → Bool → Prop
  | same (ready : Bool) : Selected r r ready
  | lost : Selected r { r with socketOK := false } false
  | received {n : Nat} (hn : n ≤ inBufSize - r.buf.length) (hok : r.socketOK = true) :
      Selected r { r with buf := r.buf ++ r.incoming.take n, incoming := r.incoming.drop n } true
  | closed (hok : r.socketOK = true) :
      Selected r { r with buf := resize inBufSize r.buf, socketOK := false } true

theorem select_selected {r q : Reader} {p : Poll} {ready : Bool}
    (hprompt : p ≠ .ready (some .wouldBlock))
    (h : r.processNonBlockingSelect p = some (q, ready)) : Selected r q ready := by
  rw [Reader.processNonBlockingSelect.eq_def] at h
  split at h
  · next hok =>
    split at h
    · cases h
      exact .same false
    · cases h
      exact .lost
    · cases h
      exact .same true
    · next recv =>
      obtain ⟨q', hq, heq⟩ := Option.map_eq_some_iff.mp h
      cases heq
      cases recv with
      | bytes n =>
        simp only [Reader.onReceive, Option.ite_none_right_eq_some, Option.some.injEq] at hq
        obtain ⟨⟨-, -, hn⟩, rfl⟩ := hq
        exact .received hn hok
      | wouldBlock => exact absurd rfl hprompt
      | closed =>
        cases hq
        exact .closed hok
  · cases h
    exact .same false

theorem Split.of_eq {r t : Reader} {ms rest : List tws.Message} {more : List (List UInt8)}
    (h : Split r ms rest more) (hsent : t.sent = r.sent) (hdelivered : t.delivered = r.delivered) :
    Split t ms rest more :=
  ⟨hsent.trans h.sent, hdelivered.trans h.delivered⟩

theorem Split.queue {r : Reader} {ms rest : List tws.Message} {m : tws.Message} {more x}
    (h : Split r ms rest []) (hrest : rest = m :: more) :
    Split { r with msgQueue := r.msgQueue ++ [x], place := .loop } ms (m :: more) [x] where
  sent := hrest ▸ h.sent
  delivered := by
    have hdelivered := h.delivered
    simp only [Reader.delivered, List.append_nil] at hdelivered ⊢
    rw [← List.append_assoc, hdelivered]

theorem Split.shift {r : Reader} {ms more : List tws.Message} {m : tws.Message} {x : List UInt8}
    (h : Split r ms (m :: more) [x]) (hx : x = m.data) : Split r (ms ++ [m]) more [] where
  sent := by rw [h.sent, List.append_assoc, List.singleton_append]
  delivered := by rw [h.delivered, List.map_append, hx, List.append_nil, List.map_singleton]

namespace Reader

variable {r : Reader} {part : Part} {size : Nat} {got : List UInt8}

theorem consume_last (h : size ≤ inBufSize) :
    r.consume part size got =
      Reader.finish { r with buf := r.buf.drop size } part (got ++ r.buf.take size) := by
  simp [consume, min_eq_right h]

theorem consume_full (h : inBufSize < size) (hbuf : r.buf.length = inBufSize) :
    r.consume part size got =
      { r with buf := [], place := .reading part (size - inBufSize) (got ++ r.buf) } := by
  have hrest : ¬ size - inBufSize = 0 := by omega
  simp [consume, min_eq_left h.le, hrest, List.take_of_length_le hbuf.le,
    List.drop_of_length_le hbuf.le]

theorem finish_header {bytes : List UInt8} {n : Nat} (h : ntohl bytes = n) (hpos : 0 < n)
    (hle : n ≤ maxMsgLen) :
    r.finish .header bytes = { r with place := .reading .body n [] } := by
  have hfits : ¬ ((n : Int) ≤ 0 ∨ (n : Int) > maxMsgLen) := by omega
  simp only [finish, h, if_neg hfits, Int.toNat_natCast]

theorem length_of_not_short (h : ¬ r.Short size) : min inBufSize size ≤ r.buf.length := by
  simp only [Short] at h
  omega

end Reader

/-- The header of the next message is read. -/
theorem Whole.consume_header {r : Reader} {ms rest : List tws.Message}
    (hsplit : Split r ms rest []) (h : Whole r rest) (hplace : r.place = .reading .header 4 [])
    (hlen : 4 ≤ r.buf.length) : Phase (r.consume .header 4 []) := by
  have hstream := h.stream
  rw [Reader.begun_header hplace, List.nil_append, ← List.take_append_drop 4 r.buf,
    List.append_assoc] at hstream
  have htake : (r.buf.take 4).length = tws.width := by
    rw [List.length_take, min_eq_left hlen]
    rfl
  obtain ⟨m, more, rfl, hheader, hdata⟩ := stream_eq_append htake hstream
  have hpos : 0 < m.data.length := List.length_pos_iff.mpr m.ne_nil
  have hsize : ntohl (r.buf.take 4) = m.data.length := by
    rw [hheader]
    exact ntohl_htonl m.length_le
  rw [Reader.consume_last (by decide), List.nil_append,
    Reader.finish_header hsize hpos m.length_le]
  refine .whole (hsplit.of_eq rfl rfl) ⟨⟨hpos, ?_⟩, ?_, ?_⟩
  · exact (Nat.zero_add _).le.trans m.length_le
  · exact (List.length_drop.le.trans (Nat.sub_le _ _)).trans h.buf
  · rw [stream_cons, ← hdata]
    simp [Reader.begun, tws]

/-- A message that is read to its end is the next one that was sent. -/
theorem Whole.consume_body {r : Reader} {ms rest : List tws.Message} {size : Nat}
    {got : List UInt8} (hsplit : Split r ms rest []) (h : Whole r rest)
    (hplace : r.place = .reading .body size got) (hshort : ¬ r.Short size) :
    Phase (r.consume .body size got) := by
  have hlen := Reader.length_of_not_short hshort
  obtain ⟨hpos, hle⟩ : 0 < size ∧ got.length + size ≤ maxMsgLen := by
    have hvalid := h.place
    rwa [hplace] at hvalid
  have hstream := h.stream
  rw [Reader.begun_body hplace] at hstream
  by_cases hfull : inBufSize < size
  · have hbuf : r.buf.length = inBufSize := by
      have hmax := h.buf
      omega
    rw [Reader.consume_full hfull hbuf]
    refine .whole (hsplit.of_eq rfl rfl) ⟨⟨by omega, ?_⟩, Nat.zero_le _, ?_⟩
    · rw [List.length_append]
      omega
    · have hsum : got.length + r.buf.length + (size - inBufSize) = got.length + size := by omega
      simpa [Reader.begun, hsum] using hstream
  · have hlast : size ≤ inBufSize := not_lt.mp hfull
    rw [min_eq_right hlast] at hlen
    rw [List.append_assoc] at hstream
    obtain ⟨m, more, rfl, hm, hdata⟩ := stream_eq_header hle hstream
    rw [← List.take_append_drop size r.buf, List.append_assoc, ← List.append_assoc got] at hdata
    have hgot : (got ++ r.buf.take size).length = m.data.length := by
      rw [List.length_append, List.length_take, min_eq_left hlen, hm]
    obtain ⟨hmessage, hmore⟩ := List.append_inj hdata hgot
    rw [Reader.consume_last hlast]
    have hqueued := (Split.queue hsplit rfl).shift hmessage
    refine .whole (hqueued.of_eq rfl rfl) ⟨trivial, ?_, ?_⟩
    · exact (List.length_drop.le.trans (Nat.sub_le _ _)).trans h.buf
    · exact hmore.symm

/-- The socket is asked while bytes of a message are missing. -/
theorem Whole.closed {r : Reader} {ms rest : List tws.Message} {part : Part} {size : Nat}
    {got : List UInt8} (hsplit : Split r ms rest []) (h : Whole r rest)
    (hplace : r.place = .reading part size got) (hshort : r.Short size) :
    Phase { r with buf := resize inBufSize r.buf, socketOK := false } := by
  have hbuf : resize inBufSize r.buf =
      r.buf ++ List.replicate (inBufSize - r.buf.length) 0 := by
    rw [resize, List.take_of_length_le h.buf]
  obtain ⟨hless, hroom⟩ := hshort
  have hlength : (resize inBufSize r.buf).length = inBufSize := by
    rw [hbuf, List.length_append, List.length_replicate]
    omega
  have hstream := h.stream
  have hvalid := h.place
  rw [hplace] at hvalid
  refine .cut (hsplit.of_eq rfl rfl) ?_ rfl
  cases part with
  | header =>
    obtain ⟨rfl, rfl⟩ := hvalid
    rw [Reader.begun_header hplace, List.nil_append] at hstream
    refine .header hplace hbuf hless ?_
    cases rest with
    | nil => exact .inl (List.append_eq_nil_iff.mp hstream.symm).1
    | cons m more =>
      rw [stream_cons] at hstream
      have hprefix : r.buf <+: htonl m.data.length := by
        refine List.prefix_of_prefix_length_le (List.prefix_append _ r.incoming)
          (hstream ▸ List.prefix_append _ _) ?_
        rw [htonl, List.length_reverse, length_toBytes]
        exact hless.le
      obtain ⟨cs, hcs⟩ := hprefix
      exact .inr ⟨m, more, cs, rfl, hcs.symm⟩
  | body =>
    obtain ⟨hpos, hle⟩ := hvalid
    rw [Reader.begun_body hplace] at hstream
    refine .body hplace hpos hlength.le fun hfits => ?_
    · have hfits : size ≤ inBufSize := hlength ▸ hfits
      rw [List.append_assoc] at hstream
      obtain ⟨m, more, rfl, hm, hdata⟩ := stream_eq_header hle hstream
      refine ⟨m, more, rfl, ?_⟩
      have hk : got.length + r.buf.length < m.data.length := by omega
      have htake : got ++ (resize inBufSize r.buf).take size =
          m.data.take (got.length + r.buf.length) ++
            List.replicate (m.data.length - (got.length + r.buf.length)) 0 := by
        have hcame : got ++ r.buf = m.data.take (got.length + r.buf.length) := by
          rw [← List.take_append_of_le_length hk.le, ← hdata, ← List.append_assoc,
            ← List.length_append, List.take_left]
        have hzeros : min (size - r.buf.length) (inBufSize - r.buf.length) =
            m.data.length - (got.length + r.buf.length) := by omega
        rw [hbuf, List.take_append, List.take_of_length_le hless.le, List.take_replicate, hzeros,
          ← hcame, List.append_assoc]
      rw [htake]
      exact .body _ hk

theorem cutHeader_length {rest : List tws.Message} {bs : List UInt8} (hlen : bs.length < 4)
    (hbs : bs = [] ∨ ∃ m more cs, rest = m :: more ∧ htonl m.data.length = bs ++ cs) :
    ∃ n : Nat, ntohl (bs ++ List.replicate (4 - bs.length) 0) = n ∧
      (0 < n → ∃ m more, rest = m :: more ∧ n ≤ m.data.length) := by
  obtain rfl | ⟨m, more, cs, hrest, hheader⟩ := hbs
  · exact ⟨0, (ntohl_eq (by decide)).trans rfl, fun h => absurd h (lt_irrefl 0)⟩
  · have hcs : cs.length = 4 - bs.length := by
      have htotal := tws.length_header m.data.length
      change (htonl m.data.length).length = 4 at htotal
      rw [hheader, List.length_append] at htotal
      omega
    have hle := ofBytes_zeros_le bs cs
    rw [← hheader, ofBytes_htonl m.length_le, hcs] at hle
    exact ⟨_, ntohl_eq (hle.trans m.length_le), fun _ => ⟨m, more, hrest, hle⟩⟩

theorem Cut.turned_header {r : Reader} {ms rest : List tws.Message} {bs : List UInt8}
    (hsplit : Split r ms rest []) (hend : r.socketOK = false)
    (hbuf : r.buf = bs ++ List.replicate (inBufSize - bs.length) 0) (hlen : bs.length < 4)
    (hbs : bs = [] ∨ ∃ m more cs, rest = m :: more ∧ htonl m.data.length = bs ++ cs) :
    Phase (r.consume .header 4 []) := by
  have hsize : inBufSize = 8192 := rfl
  have htake : r.buf.take 4 = bs ++ List.replicate (4 - bs.length) 0 := by
    have hzeros : min (4 - bs.length) (inBufSize - bs.length) = 4 - bs.length := by omega
    rw [hbuf, List.take_append, List.take_of_length_le hlen.le, List.take_replicate, hzeros]
  have hdrop : r.buf.drop 4 = List.replicate (inBufSize - 4) 0 := by
    have hzeros : inBufSize - bs.length - (4 - bs.length) = inBufSize - 4 := by omega
    rw [hbuf, List.drop_append, List.drop_of_length_le hlen.le, List.nil_append,
      List.drop_replicate, hzeros]
  obtain ⟨n, hn, hmessage⟩ := cutHeader_length hlen hbs
  rw [Reader.consume_last (by decide), List.nil_append, htake, hdrop]
  obtain rfl | hpos := Nat.eq_zero_or_pos n
  · have hbad : ((0 : Nat) : Int) ≤ 0 ∨ ((0 : Nat) : Int) > maxMsgLen := .inl le_rfl
    simp only [Reader.finish, hn, if_pos hbad]
    exact .stopped (hsplit.of_eq rfl rfl) rfl (.inl hend)
  · obtain ⟨m, more, rfl, hle⟩ := hmessage hpos
    rw [Reader.finish_header hn hpos (hle.trans m.length_le)]
    refine .cut (hsplit.of_eq rfl rfl) ?_ hend
    refine .body rfl hpos ?_ fun hfits => ⟨m, more, rfl, ?_⟩
    · rw [List.length_replicate]
      omega
    · rw [List.length_replicate] at hfits
      rw [List.nil_append, List.take_replicate, min_eq_left hfits]
      exact .header n hle

/-- The reader of a closed connection takes its buffer for what came. -/
theorem Cut.turned {r : Reader} {ms rest : List tws.Message} {part : Part} {size : Nat}
    {got : List UInt8} (hsplit : Split r ms rest []) (h : Cut r rest) (hend : r.socketOK = false)
    (hplace : r.place = .reading part size got) (hshort : ¬ r.Short size) :
    Phase (r.consume part size got) := by
  cases h with
  | @header bs hheader hbuf hlen hbs =>
    cases hplace.symm.trans hheader
    exact turned_header hsplit hend hbuf hlen hbs
  | @body size got hbody hpos hbuf hcut =>
    have hlen := Reader.length_of_not_short hshort
    cases hplace.symm.trans hbody
    by_cases hfull : inBufSize < size
    · have hlength : r.buf.length = inBufSize := by omega
      rw [Reader.consume_full hfull hlength]
      refine .cut (hsplit.of_eq rfl rfl) ?_ hend
      refine .body rfl (by omega) (Nat.zero_le _) fun hfits => ?_
      rw [List.length_nil] at hfits
      omega
    · have hlast : size ≤ inBufSize := not_lt.mp hfull
      rw [min_eq_right hlast] at hlen
      obtain ⟨m, more, rfl, hx⟩ := hcut hlen
      have hqueued := Split.queue (x := got ++ r.buf.take size) hsplit rfl
      rw [Reader.consume_last hlast]
      exact .queued (hqueued.of_eq rfl rfl) hx hend (.inl rfl)

theorem Phase.stop {r t : Reader} (h : Phase r) (hsent : t.sent = r.sent)
    (hdelivered : t.delivered = r.delivered) (hplace : t.place = .stopped)
    (hclosed : r.socketOK = false → t.socketOK = false)
    (hend : t.socketOK = false ∨ t.isAlive = false) : Phase t := by
  have hkeep : ∀ {ms rest more}, Split r ms rest more → Split t ms rest more :=
    fun hsplit => hsplit.of_eq hsent hdelivered
  cases h with
  | whole hsplit => exact .stopped (hkeep hsplit) hplace hend
  | stopped hsplit => exact .stopped (hkeep hsplit) hplace hend
  | cut hsplit => exact .stopped (hkeep hsplit) hplace hend
  | queued hsplit hx hfalse => exact .queued (hkeep hsplit) hx (hclosed hfalse) (.inr hplace)

theorem Phase.open {r : Reader} (h : Phase r) (hok : r.socketOK = true)
    (hplace : r.place ≠ .stopped) : ∃ ms rest, Split r ms rest [] ∧ Whole r rest := by
  cases h with
  | whole hsplit hwhole => exact ⟨_, _, hsplit, hwhole⟩
  | stopped _ hstop => exact absurd hstop hplace
  | cut _ _ hend => exact absurd (hok.symm.trans hend) (by simp)
  | queued _ _ hend => exact absurd (hok.symm.trans hend) (by simp)

theorem putMessageToQueue_phase {r : Reader} (h : Phase r) (hplace : r.place = .loop) :
    Phase r.putMessageToQueue := by
  rw [Reader.putMessageToQueue]
  split
  · next hok =>
    obtain ⟨ms, rest, hsplit, hwhole⟩ := h.open hok (by simp [hplace])
    refine .whole (hsplit.of_eq rfl rfl) ⟨⟨rfl, rfl⟩, hwhole.buf, ?_⟩
    have hstream := hwhole.stream
    simp only [Reader.begun, hplace] at hstream
    exact hstream
  · next hclosed =>
    have hfalse : r.socketOK = false := by simpa using hclosed
    exact h.stop rfl rfl rfl (fun _ => hfalse) (.inl hfalse)

theorem received_phase {r : Reader} (h : Phase r) {n : Nat} (hn : n ≤ inBufSize - r.buf.length)
    (hok : r.socketOK = true) (hplace : r.place ≠ .stopped) :
    Phase { r with buf := r.buf ++ r.incoming.take n, incoming := r.incoming.drop n } := by
  obtain ⟨ms, rest, hsplit, hwhole⟩ := h.open hok hplace
  refine .whole (hsplit.of_eq rfl rfl) ⟨hwhole.place, ?_, ?_⟩
  · have hbuf := hwhole.buf
    rw [List.length_append, List.length_take]
    omega
  · rw [List.append_assoc, List.take_append_drop]
    exact hwhole.stream

/-- A step of the thread without the socket. -/
theorem turn_phase {r t : Reader} (h : Phase r) (ht : r.turn = some t) : Phase t := by
  rw [Reader.turn.eq_def] at ht
  split at ht
  · next hplace =>
    split at ht
    · obtain ⟨-, heq⟩ := Option.ite_none_left_eq_some.mp ht
      obtain rfl := Option.some.inj heq
      exact putMessageToQueue_phase h hplace
    · next hdead =>
      obtain rfl := Option.some.inj ht
      exact h.stop rfl rfl rfl id (.inr (by simpa using hdead))
  · next part size got hplace =>
    obtain ⟨hshort, heq⟩ := Option.ite_none_left_eq_some.mp ht
    obtain rfl := Option.some.inj heq
    cases h with
    | whole hsplit hwhole =>
      cases part with
      | header =>
        have hvalid := hwhole.place
        rw [hplace] at hvalid
        obtain ⟨rfl, rfl⟩ := hvalid
        exact hwhole.consume_header hsplit hplace (Reader.length_of_not_short hshort)
      | body => exact hwhole.consume_body hsplit hplace hshort
    | stopped hsplit hstop hend => exact absurd (hplace.symm.trans hstop) (by simp)
    | cut hsplit hcut hend => exact hcut.turned hsplit hend hplace hshort
    | queued hsplit hx hend hstop =>
      rw [hplace] at hstop
      simp at hstop
  · cases ht

/-- A step of the thread that asks the socket. -/
theorem poll_phase {r t : Reader} {p : Poll} (hprompt : p ≠ .ready (some .wouldBlock))
    (h : Phase r) (ht : r.poll p = some t) : Phase t := by
  rw [Reader.poll.eq_def] at ht
  split at ht
  · next hplace =>
    obtain ⟨⟨-, -⟩, hmap⟩ := Option.ite_none_right_eq_some.mp ht
    obtain ⟨⟨q, ready⟩, hselect, rfl⟩ := Option.map_eq_some_iff.mp hmap
    have hne : r.place ≠ .stopped := by simp [hplace]
    cases select_selected hprompt hselect with
    | same =>
      dsimp only
      split
      · exact h
      · exact putMessageToQueue_phase h hplace
    | lost => exact h.stop rfl rfl rfl (fun _ => rfl) (.inl rfl)
    | received hn hok => exact putMessageToQueue_phase (received_phase h hn hok hne) hplace
    | closed => exact h.stop rfl rfl rfl (fun _ => rfl) (.inl rfl)
  · next part size got hplace =>
    obtain ⟨hshort, hmap⟩ := Option.ite_none_right_eq_some.mp ht
    obtain ⟨⟨q, ready⟩, hselect, rfl⟩ := Option.map_eq_some_iff.mp hmap
    have hne : r.place ≠ .stopped := by simp [hplace]
    cases select_selected hprompt hselect with
    | same =>
      dsimp only
      split
      · next hclosed =>
        have hfalse : r.socketOK = false := by simp_all
        exact h.stop rfl rfl rfl id (.inl hfalse)
      · exact h
    | lost => exact h.stop rfl rfl rfl (fun _ => rfl) (.inl rfl)
    | received hn hok => exact received_phase h hn hok hne
    | closed hok =>
      obtain ⟨ms, rest, hsplit, hwhole⟩ := h.open hok hne
      exact hwhole.closed hsplit hplace hshort
  · cases ht

theorem send_phase {r : Reader} (h : Phase r) (m : tws.Message) :
    Phase { r with sent := r.sent ++ [m], incoming := r.incoming ++ frame m } := by
  have hkeep : ∀ {ms rest more}, Split r ms rest more →
      Split { r with sent := r.sent ++ [m], incoming := r.incoming ++ frame m } ms (rest ++ [m])
        more :=
    fun hsplit => ⟨by rw [hsplit.sent, List.append_assoc], hsplit.delivered⟩
  cases h with
  | whole hsplit hwhole =>
    refine .whole (hkeep hsplit) ⟨hwhole.place, hwhole.buf, ?_⟩
    rw [stream_append, hwhole.stream]
    simp [Reader.begun, frame]
  | stopped hsplit hplace hend => exact .stopped (hkeep hsplit) hplace hend
  | cut hsplit hcut hend =>
    refine .cut (hkeep hsplit) ?_ hend
    cases hcut with
    | header hplace hbuf hlen hbs =>
      refine .header hplace hbuf hlen (hbs.imp_right ?_)
      rintro ⟨m', more, cs, rfl, hheader⟩
      exact ⟨m', more ++ [m], cs, rfl, hheader⟩
    | body hplace hsize hbuf hcut =>
      refine .body hplace hsize hbuf fun hfits => ?_
      obtain ⟨m', more, rfl, hx⟩ := hcut hfits
      exact ⟨m', more ++ [m], rfl, hx⟩
  | queued hsplit hx hend hplace => exact .queued (hkeep hsplit) hx hend hplace

/-- What other threads do to the reader. -/
structure Outside (r t : Reader) : Prop where
  sent : t.sent = r.sent
  delivered : t.delivered = r.delivered
  place : t.place = r.place
  buf : t.buf = r.buf
  incoming : t.incoming = r.incoming
  closed : r.socketOK = false → t.socketOK = false
  dead : r.isAlive = false → t.isAlive = false

theorem Phase.outside {r t : Reader} (h : Phase r) (ht : Outside r t) : Phase t := by
  have hkeep : ∀ {ms rest more}, Split r ms rest more → Split t ms rest more :=
    fun hsplit => hsplit.of_eq ht.sent ht.delivered
  cases h with
  | whole hsplit hwhole =>
    refine .whole (hkeep hsplit) ⟨ht.place ▸ hwhole.place, ht.buf ▸ hwhole.buf, ?_⟩
    have hbegun : t.begun = r.begun := by
      unfold Reader.begun
      rw [ht.place]
    rw [hwhole.stream, hbegun, ht.buf, ht.incoming]
  | stopped hsplit hplace hend =>
    exact .stopped (hkeep hsplit) (ht.place.trans hplace) (hend.imp ht.closed ht.dead)
  | cut hsplit hcut hend =>
    refine .cut (hkeep hsplit) ?_ (ht.closed hend)
    cases hcut with
    | header hplace hbuf hlen hbs =>
      exact .header (ht.place.trans hplace) (ht.buf.trans hbuf) hlen hbs
    | body hplace hsize hbuf hcut =>
      exact .body (ht.place.trans hplace) hsize (ht.buf ▸ hbuf) (ht.buf ▸ hcut)
  | queued hsplit hx hend hplace =>
    exact .queued (hkeep hsplit) hx (ht.closed hend) (ht.place ▸ hplace)

theorem getMsg_outside {r t : Reader} (ht : r.getMsg = some t) : Outside r t := by
  rw [Reader.getMsg.eq_def] at ht
  split at ht
  · cases ht
  · next msg rest hqueue =>
    cases ht
    refine ⟨rfl, ?_, rfl, rfl, rfl, id, id⟩
    simp [Reader.delivered, hqueue]

theorem step_phase {r t : Reader} {a : Move} (h : Phase r) (hprompt : Prompt r a)
    (ht : r.step a = some t) : Phase t := by
  cases a with
  | send m =>
    cases ht
    exact send_phase h m
  | turn => exact turn_phase h ht
  | poll p => exact poll_phase (fun hp => hprompt (hp ▸ rfl)) h ht
  | getMsg => exact h.outside (getMsg_outside ht)
  | eDisconnect =>
    cases ht
    exact h.outside ⟨rfl, rfl, rfl, rfl, rfl, fun _ => rfl, id⟩
  | destroy =>
    cases ht
    exact h.outside ⟨rfl, rfl, rfl, rfl, rfl, id, fun _ => rfl⟩

theorem reaches_phase {s : Reader} (h : reader.Reaches Prompt s) : Phase s := by
  refine Machine.Reaches.invariant (I := Phase) ?_ ?_ h
  · have hnone : Split reader.init [] [] [] := ⟨rfl, rfl⟩
    exact .whole hnone ⟨trivial, Nat.zero_le _, rfl⟩
  · exact fun r a t _ hphase hprompt ht => step_phase hphase hprompt ht

/-- Whatever portions the bytes come in, the messages that are queued are those
that TWS sent, in their order and each as it was sent. Only the end of the
connection can add one more at the end, for a message that came in part. -/
theorem reader_queues_sent {s : Reader} (h : reader.Reaches Prompt s) :
    (∃ rest, s.sent.map Message.data = s.delivered ++ rest) ∨
      s.socketOK = false ∧ ∃ ms m rest x, s.sent = ms ++ m :: rest ∧
        s.delivered = ms.map Message.data ++ [x] ∧ CutShort m x := by
  have hkeep : ∀ {ms rest}, Split s ms rest [] →
      ∃ rest, s.sent.map Message.data = s.delivered ++ rest := by
    intro ms rest hsplit
    refine ⟨rest.map Message.data, ?_⟩
    rw [hsplit.sent, hsplit.delivered, List.append_nil, List.map_append]
  cases reaches_phase h with
  | whole hsplit => exact .inl (hkeep hsplit)
  | stopped hsplit => exact .inl (hkeep hsplit)
  | cut hsplit => exact .inl (hkeep hsplit)
  | queued hsplit hx hend => exact .inr ⟨hend, _, _, _, _, hsplit.sent, hsplit.delivered, hx⟩

def ab : tws.Message := ⟨[97, 98, 0], by decide, by decide⟩

def cutRun : List Move :=
  [.send ab, .poll (.ready (some (.bytes 5))), .turn, .poll (.ready (some .closed)), .turn]

theorem cutRun_isSome : (reader.run reader.init cutRun).isSome = true := by decide +kernel

def cutReader : Reader := reader.stateAfter cutRun cutRun_isSome

theorem reader_queues_sent_cut :
    cutReader.delivered = [[97, 0, 0]] ∧
      ((∃ rest, cutReader.sent.map Message.data = cutReader.delivered ++ rest) ∨
        cutReader.socketOK = false ∧ ∃ ms m rest x, cutReader.sent = ms ++ m :: rest ∧
          cutReader.delivered = ms.map Message.data ++ [x] ∧ CutShort m x) := by
  refine ⟨by decide +kernel, reader_queues_sent (Machine.reaches_stateAfter_of_forall ?_ _)⟩
  simp [cutRun, Prompt]

/-- Steps of the reader's thread in which it goes on with what has been sent. -/
inductive Own : Move → Prop
  | turn : Own .turn
  | receive (n : Nat) : Own (.poll (.ready (some (.bytes n))))

def Reader.work (r : Reader) : Nat :=
  3 * r.incoming.length + 2 * r.buf.length + if r.place = .loop then 1 else 0

/-- The connection is open and the reader not taken down. -/
structure Reader.Up (r : Reader) : Prop where
  socketOK : r.socketOK = true
  isAlive : r.isAlive = true

/-- The thread goes on with less work left. -/
structure Onward (r t : Reader) : Prop where
  up : t.Up
  sent : t.sent = r.sent
  work : t.work < r.work

theorem Phase.up {r : Reader} (h : Phase r) (hup : r.Up) :
    ∃ ms rest, Split r ms rest [] ∧ Whole r rest := by
  refine h.open hup.socketOK fun hplace => ?_
  cases h with
  | whole _ hwhole =>
    have hvalid := hwhole.place
    rw [hplace] at hvalid
    exact hvalid
  | stopped _ _ hend => simp [hup.socketOK, hup.isAlive] at hend
  | cut _ _ hend => simp [hup.socketOK] at hend
  | queued _ _ hend => simp [hup.socketOK] at hend

/-- A reader that waits with nothing on its way has queued all. -/
theorem Whole.rest_nil {r : Reader} {rest : List tws.Message} (h : Whole r rest)
    (hincoming : r.incoming = [])
    (hwait : ∀ part size got, r.place = .reading part size got → r.buf.length < size)
    (hloop : r.place = .loop → r.buf = []) : rest = [] := by
  have hstream := h.stream
  have hvalid := h.place
  rw [hincoming, List.append_nil] at hstream
  cases hplace : r.place with
  | loop =>
    simp only [Reader.begun, hplace, hloop hplace] at hstream
    apply eq_nil_of_length_lt
    rw [hstream]
    decide
  | reading part size got =>
    have hless := hwait part size got hplace
    rw [hplace] at hvalid
    cases part with
    | header =>
      obtain ⟨rfl, rfl⟩ := hvalid
      rw [Reader.begun_header hplace, List.nil_append] at hstream
      apply eq_nil_of_length_lt
      rwa [hstream]
    | body =>
      rw [Reader.begun_body hplace, List.append_assoc] at hstream
      obtain ⟨m, more, rfl, hm, hdata⟩ := stream_eq_header hvalid.2 hstream
      have hlength := congrArg List.length hdata
      rw [List.length_append, List.length_append] at hlength
      omega
  | stopped =>
    rw [hplace] at hvalid
    exact hvalid.elim

theorem consume_eq (r : Reader) (part : Part) (size : Nat) (got : List UInt8) :
    ∃ place msgQueue, r.consume part size got =
      { r with
        buf := r.buf.drop (min inBufSize size), place := place, msgQueue := msgQueue } := by
  simp only [Reader.consume]
  split
  · cases part with
    | header =>
      simp only [Reader.finish]
      split <;> exact ⟨_, _, rfl⟩
    | body => exact ⟨_, _, rfl⟩
  · exact ⟨_, _, rfl⟩

theorem work_le (r : Reader) : r.work ≤ 3 * r.incoming.length + 2 * r.buf.length + 1 := by
  rw [Reader.work]
  split <;> omega

theorem consume_onward {r : Reader} {part : Part} {size : Nat} {got : List UInt8} (hup : r.Up)
    (hplace : r.place = .reading part size got) (hsize : 0 < size) (hshort : ¬ r.Short size) :
    Onward r (r.consume part size got) := by
  have hlen := Reader.length_of_not_short hshort
  have hmax : inBufSize = 8192 := rfl
  obtain ⟨place, msgQueue, hconsume⟩ := consume_eq r part size got
  rw [hconsume]
  refine ⟨⟨hup.socketOK, hup.isAlive⟩, rfl, (work_le _).trans_lt ?_⟩
  rw [Reader.work.eq_def r, hplace, List.length_drop]
  simp only [reduceCtorEq, if_false]
  omega

def Reader.received (r : Reader) (n : Nat) : Reader :=
  { r with buf := r.buf ++ r.incoming.take n, incoming := r.incoming.drop n }

theorem select_bytes {r : Reader} {n : Nat} (hup : r.Up)
    (hn : 0 < n ∧ n ≤ r.incoming.length ∧ n ≤ inBufSize - r.buf.length) :
    r.processNonBlockingSelect (.ready (some (.bytes n))) = some (r.received n, true) := by
  simp only [Reader.processNonBlockingSelect, hup.socketOK, if_true, Reader.onReceive, if_pos hn,
    Option.map_some, Reader.received]

theorem received_onward {r : Reader} {n : Nat} (hup : r.Up) (hn : 0 < n ∧ n ≤ r.incoming.length)
    {part : Part} {size : Nat} {got : List UInt8} :
    Onward r { r.received n with place := .reading part size got } := by
  refine ⟨⟨hup.socketOK, hup.isAlive⟩, rfl, ?_⟩
  simp only [Reader.work, Reader.received, List.length_append, List.length_take, List.length_drop,
    reduceCtorEq, if_false]
  omega

theorem poll_loop {r : Reader} {n : Nat} (hup : r.Up) (hplace : r.place = .loop) (hbuf : r.buf = [])
    (hn : 0 < n ∧ n ≤ r.incoming.length ∧ n ≤ inBufSize - r.buf.length) :
    r.poll (.ready (some (.bytes n))) =
      some { r.received n with place := .reading .header 4 [] } := by
  have hok : (r.received n).socketOK = true := hup.socketOK
  simp [Reader.poll, hplace, hup.isAlive, hbuf, select_bytes hup hn, Reader.putMessageToQueue, hok]

theorem poll_reading {r : Reader} {n : Nat} {part : Part} {size : Nat} {got : List UInt8}
    (hup : r.Up) (hplace : r.place = .reading part size got) (hshort : r.Short size)
    (hn : 0 < n ∧ n ≤ r.incoming.length ∧ n ≤ inBufSize - r.buf.length) :
    r.poll (.ready (some (.bytes n))) =
      some { r.received n with place := .reading part size got } := by
  simp [Reader.poll, hplace, hshort, select_bytes hup hn, Reader.received]

/-- As long as not all is queued the thread can go on. -/
theorem Whole.progress {r : Reader} {rest : List tws.Message} (h : Whole r rest) (hup : r.Up) :
    rest = [] ∨ ∃ a t, Own a ∧ r.step a = some t ∧ Onward r t := by
  have hmax : inBufSize = 8192 := rfl
  cases hplace : r.place with
  | loop =>
    by_cases hbuf : r.buf = []
    · by_cases hincoming : r.incoming = []
      · exact .inl (h.rest_nil hincoming (by simp [hplace]) fun _ => hbuf)
      · have hpos := List.length_pos_iff.mpr hincoming
        have hn : 0 < min r.incoming.length inBufSize ∧
            min r.incoming.length inBufSize ≤ r.incoming.length ∧
            min r.incoming.length inBufSize ≤ inBufSize - r.buf.length := by
          rw [hbuf, List.length_nil]
          omega
        exact .inr ⟨_, _, .receive _, poll_loop hup hplace hbuf hn,
          received_onward hup ⟨hn.1, hn.2.1⟩⟩
    · refine .inr ⟨.turn, r.putMessageToQueue, .turn, ?_, ?_⟩
      · simp [Reader.step, Reader.turn, hplace, hup.isAlive, hbuf]
      · rw [Reader.putMessageToQueue, if_pos hup.socketOK]
        refine ⟨⟨hup.socketOK, hup.isAlive⟩, rfl, ?_⟩
        simp [Reader.work, hplace]
  | reading part size got =>
    by_cases hshort : r.Short size
    · obtain ⟨hless, hroom⟩ := hshort
      by_cases hincoming : r.incoming = []
      · refine .inl (h.rest_nil hincoming (fun part' size' got' hreading => ?_) (by simp [hplace]))
        cases hplace.symm.trans hreading
        exact hless
      · have hpos := List.length_pos_iff.mpr hincoming
        have hn : 0 < min r.incoming.length (inBufSize - r.buf.length) ∧
            min r.incoming.length (inBufSize - r.buf.length) ≤ r.incoming.length ∧
            min r.incoming.length (inBufSize - r.buf.length) ≤ inBufSize - r.buf.length := by
          omega
        exact .inr ⟨_, _, .receive _, poll_reading hup hplace ⟨hless, hroom⟩ hn,
          received_onward hup ⟨hn.1, hn.2.1⟩⟩
    · have hsize : 0 < size := by
        have hvalid := h.place
        rw [hplace] at hvalid
        cases part with
        | header => exact hvalid.1 ▸ by decide
        | body => exact hvalid.1
      refine .inr ⟨.turn, _, .turn, ?_, consume_onward hup hplace hsize hshort⟩
      simp [Reader.step, Reader.turn, hplace, hshort]
  | stopped =>
    have hvalid := h.place
    rw [hplace] at hvalid
    exact hvalid.elim

/-- As long as the connection is open and the reader not taken down, its thread
can always go on to where every message that was sent is in the queue, or has
been taken from it, with no message before it missing. -/
theorem reader_catches_up {s : Reader} (h : reader.Reaches Prompt s) (hok : s.socketOK = true)
    (halive : s.isAlive = true) :
    ∃ as t, reader.StepsAll (fun _ a => Own a) s as ∧ reader.run s as = some t ∧
      t.sent = s.sent ∧ t.delivered = s.sent.map Message.data := by
  have hstep : ∀ r : Reader, Phase r ∧ r.Up ∧ r.sent = s.sent →
      r.delivered = r.sent.map Message.data ∨ ∃ a t, Own a ∧ reader.step r a = some t ∧
        (Phase t ∧ t.Up ∧ t.sent = s.sent) ∧ t.work < r.work := by
    rintro r ⟨hphase, hup, hsent⟩
    obtain ⟨ms, rest, hsplit, hwhole⟩ := hphase.up hup
    obtain rfl | ⟨a, t, ha, ht, honward⟩ := hwhole.progress hup
    · refine .inl ?_
      rw [hsplit.sent, hsplit.delivered, List.append_nil, List.append_nil]
    · have hprompt : Prompt r a := by cases ha <;> simp [Prompt]
      exact .inr ⟨a, t, ha, ht,
        ⟨step_phase hphase hprompt ht, honward.up, honward.sent.trans hsent⟩, honward.work⟩
  obtain ⟨as, t, has, hrun, ⟨-, -, hsent⟩, hgoal⟩ :=
    Machine.exists_run _ _ Reader.work hstep ⟨reaches_phase h, ⟨hok, halive⟩, rfl⟩
  exact ⟨as, t, has, hrun, hsent, hsent ▸ hgoal⟩

def halfRun : List Move := [.send ab, .poll (.ready (some (.bytes 5)))]

theorem halfRun_isSome : (reader.run reader.init halfRun).isSome = true := by decide +kernel

def halfReader : Reader := reader.stateAfter halfRun halfRun_isSome

theorem reader_catches_up_half :
    halfReader.delivered = [] ∧ ∃ as t, reader.StepsAll (fun _ a => Own a) halfReader as ∧
      reader.run halfReader as = some t ∧ t.sent = halfReader.sent ∧
        t.delivered = halfReader.sent.map Message.data := by
  refine ⟨by decide +kernel, reader_catches_up (Machine.reaches_stateAfter_of_forall ?_ _)
    (by decide +kernel) (by decide +kernel)⟩
  simp [halfRun, Prompt]

end CalmTrading.MessageReader
