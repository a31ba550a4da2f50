import Mathlib.Data.List.Basic
import CalmTrading.Algo
import CalmTrading.Lib.Bytes
import CalmTrading.Objects
import CalmTrading.PosMessages

namespace CalmTrading.Listener

open Lib.Bytes Objects

namespace RedisClient

/-- The bytes of the message are compared with those of the sentinel, one by one. -/
def isSentinel (sentinel msg : List UInt8) : Bool :=
  if msg.length ≠ sentinel.length + 1 then false
  else (List.range sentinel.length).all fun i => sentinel[i]? = msg[i]?

section

variable {S : Type} (callback : S → List UInt8 → S)

/-- The loop of `subscribe` over the messages that come. What the callback works
on is passed along; the flag says that the loop has ended. -/
def receive (sentinel : List UInt8) : S → List (List UInt8) → S × Bool
  | s, [] => (s, false)
  | s, msg :: msgs =>
    if isSentinel sentinel msg then (s, true) else receive sentinel (callback s msg) msgs

def subscribe (s : S) (msgs : List (List UInt8)) (sentinel : List UInt8 := bytes "sentinel") :
    S × Bool :=
  receive callback sentinel s msgs

end

end RedisClient

open RedisClient

/-- The part of the engine that the listener thread works on. -/
structure AlgoEngine where
  sentinelToken : List UInt8
  q : List PosUpdate := []

namespace AlgoEngine

variable (decode : List UInt8 → PosUpdate)

/-- `decode` is what `mq_message_cb` makes of a message. -/
def mqMessageCb (e : AlgoEngine) (msg : List UInt8) : AlgoEngine :=
  { e with q := e.q ++ [decode msg] }

def runRedisSub (e : AlgoEngine) (msgs : List (List UInt8)) : AlgoEngine × Bool :=
  subscribe (mqMessageCb decode) e msgs

end AlgoEngine

def beforeToken (token : List UInt8) (msgs : List (List UInt8)) : List (List UInt8) :=
  msgs.takeWhile (· ≠ token ++ [0])

/-- What the listener enqueues are the messages before the first that is the
token and a NUL, and it has returned if there is one. -/
def StopsAtToken (decode : List UInt8 → PosUpdate) (e : AlgoEngine) (msgs : List (List UInt8)) :
    Prop :=
  (e.runRedisSub decode msgs).1.q = e.q ++ (beforeToken e.sentinelToken msgs).map decode ∧
    ((e.runRedisSub decode msgs).2 = true ↔ e.sentinelToken ++ [0] ∈ msgs)

def sentinelLike (msg : List UInt8) : Bool := isSentinel (bytes "sentinel") msg

/-- Either the token is the word, and the first message of nine bytes that begin
with it, if there is one, ends in NUL; or neither such a message comes nor the
token with a NUL. -/
def Unmistaken (token : List UInt8) (msgs : List (List UInt8)) : Prop :=
  (token = bytes "sentinel" ∧ ∀ msg, msgs.find? sentinelLike = some msg → msg = token ++ [0]) ∨
    (token ++ [0] ∉ msgs ∧ ∀ msg ∈ msgs, sentinelLike msg = false)

theorem isSentinel_iff {sentinel msg : List UInt8} :
    isSentinel sentinel msg = true ↔ ∃ b, msg = sentinel ++ [b] := by
  rw [isSentinel]
  split
  · next hlen =>
    refine iff_of_false Bool.false_ne_true ?_
    rintro ⟨b, rfl⟩
    simp at hlen
  · next hlen =>
    have hlen : msg.length = sentinel.length + 1 := by simpa using hlen
    simp only [List.all_eq_true, List.mem_range, decide_eq_true_eq]
    constructor
    · intro hall
      obtain rfl | ⟨init, b, rfl⟩ := msg.eq_nil_or_concat'
      · simp at hlen
      · have hinit : init.length = sentinel.length := by simpa using hlen
        refine ⟨b, congrArg (· ++ [b]) (List.ext_getElem? fun i => ?_)⟩
        by_cases hi : i < sentinel.length
        · rw [hall i hi, List.getElem?_append_left (by omega)]
        · rw [List.getElem?_eq_none (by omega), List.getElem?_eq_none (by omega)]
    · rintro ⟨b, rfl⟩ i hi
      rw [List.getElem?_append_left hi]

theorem sentinelLike_iff {msg : List UInt8} :
    sentinelLike msg = true ↔ ∃ b, msg = bytes "sentinel" ++ [b] :=
  isSentinel_iff

variable {decode : List UInt8 → PosUpdate}

theorem runRedisSub_nil (e : AlgoEngine) : e.runRedisSub decode [] = (e, false) := rfl

theorem runRedisSub_cons (e : AlgoEngine) (msg : List UInt8) (msgs : List (List UInt8)) :
    e.runRedisSub decode (msg :: msgs) =
      if sentinelLike msg then (e, true)
      else (e.mqMessageCb decode msg).runRedisSub decode msgs :=
  rfl

section Engine

variable (text : List UInt8 → String) (double : UInt64 → Double)

/-- The message with its characters read as a string and its bits as a number. -/
def posMsg (u : PosMessages.PosUpdate) : Algo.PosMsg where
  symbol := text u.symbol
  pos := double u.pos
  timestamp := u.timestamp.toInt

/-- The callback of the engine with all its parts, on a message with what lies
behind it in memory. -/
def engineCb (beyond : List UInt8) (a : Algo.AlgoEngine) (msg : List UInt8) : Algo.AlgoEngine :=
  match PosMessages.mqMessageCb (msg ++ beyond) msg.length with
  | some (_, some u) => a.mqMessageCb (posMsg text double u)
  | _ => a

def update (msg : List UInt8) : PosUpdate where
  symbol := text (PosMessages.decoded msg).symbol
  pos := double (PosMessages.decoded msg).pos
  timestamp := (PosMessages.decoded msg).timestamp.toInt

theorem engineCb_q {msg beyond : List UInt8} (h : PosMessages.Exact msg beyond)
    (a : Algo.AlgoEngine) :
    (engineCb text double beyond a msg).q = a.q ++ [.algoPosUpdate (update text double msg)] := by
  have hlen := ((PosMessages.exact_iff msg beyond).mp h).1
  obtain ⟨rs, hrs, -⟩ := h
  rw [engineCb, hrs, if_pos hlen]
  rfl

/-- The engine with all its parts takes the same updates, as far as its callback
decodes what the loop hands it. -/
theorem runRedisSub_engine {beyond : List UInt8} {a : Algo.AlgoEngine} {e : AlgoEngine}
    (h : a.q = e.q.map Event.algoPosUpdate) {msgs : List (List UInt8)}
    (hmsgs : ∀ msg ∈ msgs, sentinelLike msg = false → PosMessages.Exact msg beyond) :
    (subscribe (engineCb text double beyond) a msgs).1.q =
      (e.runRedisSub (update text double) msgs).1.q.map Event.algoPosUpdate := by
  rw [subscribe]
  induction msgs generalizing a e with
  | nil => exact h
  | cons msg msgs ih =>
    rw [receive, runRedisSub_cons, ← sentinelLike]
    cases hlike : sentinelLike msg with
    | true => exact h
    | false =>
      have hexact := hmsgs msg List.mem_cons_self hlike
      refine ih ?_ fun msg' hmsg' => hmsgs msg' (List.mem_cons_of_mem msg hmsg')
      rw [engineCb_q text double hexact, h, AlgoEngine.mqMessageCb, List.map_append]
      rfl

end Engine

theorem runRedisSub_q (decode : List UInt8 → PosUpdate) (e : AlgoEngine) (msgs : List (List UInt8)) :
    e.q <+: (e.runRedisSub decode msgs).1.q := by
  induction msgs generalizing e with
  | nil => exact List.prefix_rfl
  | cons msg msgs ih =>
    rw [runRedisSub_cons]
    split
    · exact List.prefix_rfl
    · exact (List.prefix_append e.q [decode msg]).trans (ih (e.mqMessageCb decode msg))

theorem beforeToken_token (token : List UInt8) (msgs : List (List UInt8)) :
    beforeToken token ((token ++ [0]) :: msgs) = [] := by
  simp [beforeToken]

theorem beforeToken_cons {token msg : List UInt8} {msgs : List (List UInt8)}
    (htoken : msg ≠ token ++ [0]) :
    beforeToken token (msg :: msgs) = msg :: beforeToken token msgs := by
  rw [beforeToken, List.takeWhile_cons_of_pos (by simpa using htoken)]
  rfl

theorem stopsAtToken_cons {e : AlgoEngine} {msg : List UInt8} {msgs : List (List UInt8)}
    (hlike : sentinelLike msg = false) (htoken : msg ≠ e.sentinelToken ++ [0]) :
    StopsAtToken decode e (msg :: msgs) ↔ StopsAtToken decode (e.mqMessageCb decode msg) msgs := by
  have htoken' : e.sentinelToken ++ [0] ∈ msg :: msgs ↔ e.sentinelToken ++ [0] ∈ msgs := by
    simp [Ne.symm htoken]
  rw [StopsAtToken, runRedisSub_cons, hlike, if_neg Bool.false_ne_true, beforeToken_cons htoken,
    htoken', StopsAtToken]
  simp [AlgoEngine.mqMessageCb]

theorem unmistaken_cons {token msg : List UInt8} {msgs : List (List UInt8)}
    (hlike : sentinelLike msg = false) (htoken : msg ≠ token ++ [0]) :
    Unmistaken token (msg :: msgs) ↔ Unmistaken token msgs := by
  simp [Unmistaken, hlike, Ne.symm htoken]

theorem runRedisSub_of_like (e : AlgoEngine) {msg : List UInt8} (hlike : sentinelLike msg = true)
    (msgs : List (List UInt8)) : e.runRedisSub decode (msg :: msgs) = (e, true) := by
  rw [runRedisSub_cons, if_pos hlike]

theorem stopsAtToken_of_word {e : AlgoEngine} {msgs : List (List UInt8)}
    (hlike : sentinelLike (e.sentinelToken ++ [0]) = true) :
    StopsAtToken decode e ((e.sentinelToken ++ [0]) :: msgs) ∧
      Unmistaken e.sentinelToken ((e.sentinelToken ++ [0]) :: msgs) := by
  obtain ⟨b, hb⟩ := sentinelLike_iff.mp hlike
  have hword : e.sentinelToken = bytes "sentinel" := (List.append_inj' hb rfl).1
  constructor
  · rw [StopsAtToken, runRedisSub_of_like e hlike, beforeToken_token]
    simp
  · refine .inl ⟨hword, fun first hfirst => ?_⟩
    rw [List.find?_cons_of_pos hlike, Option.some.injEq] at hfirst
    exact hfirst.symm

theorem mistaken_of_like {e : AlgoEngine} {msg : List UInt8} {msgs : List (List UInt8)}
    (hlike : sentinelLike msg = true) (htoken : msg ≠ e.sentinelToken ++ [0]) :
    ¬ StopsAtToken decode e (msg :: msgs) ∧ ¬ Unmistaken e.sentinelToken (msg :: msgs) := by
  constructor
  · rintro ⟨hq, _⟩
    rw [runRedisSub_of_like e hlike, beforeToken_cons htoken] at hq
    simp at hq
  · rintro (⟨_, hfirst⟩ | ⟨_, hnone⟩)
    · exact htoken (hfirst msg (List.find?_cons_of_pos hlike))
    · rw [hnone msg List.mem_cons_self] at hlike
      cases hlike

/-- A token that is not recognised is enqueued. -/
theorem mistaken_of_token {e : AlgoEngine} {msgs : List (List UInt8)}
    (hlike : sentinelLike (e.sentinelToken ++ [0]) = false) :
    ¬ StopsAtToken decode e ((e.sentinelToken ++ [0]) :: msgs) ∧
      ¬ Unmistaken e.sentinelToken ((e.sentinelToken ++ [0]) :: msgs) := by
  constructor
  · rintro ⟨hq, _⟩
    rw [runRedisSub_cons, hlike, if_neg Bool.false_ne_true, beforeToken_token] at hq
    have hle :=
      (runRedisSub_q decode (e.mqMessageCb decode (e.sentinelToken ++ [0])) msgs).length_le
    rw [hq] at hle
    simp [AlgoEngine.mqMessageCb] at hle
  · rintro (⟨hword, _⟩ | ⟨hnone, _⟩)
    · rw [hword, sentinelLike_iff.mpr ⟨0, rfl⟩] at hlike
      cases hlike
    · exact hnone List.mem_cons_self

/-- The listener keeps to its token exactly as long as nothing is taken for the
word that `subscribe` looks for, or the token is that word. -/
theorem stopsAtToken_iff (decode : List UInt8 → PosUpdate) (e : AlgoEngine)
    (msgs : List (List UInt8)) :
    StopsAtToken decode e msgs ↔ Unmistaken e.sentinelToken msgs := by
  induction msgs generalizing e with
  | nil => simp [StopsAtToken, Unmistaken, runRedisSub_nil, beforeToken]
  | cons msg msgs ih =>
    by_cases htoken : msg = e.sentinelToken ++ [0]
    · subst htoken
      cases hlike : sentinelLike (e.sentinelToken ++ [0]) with
      | true =>
        obtain ⟨hstops, hunmistaken⟩ := @stopsAtToken_of_word decode e msgs hlike
        exact iff_of_true hstops hunmistaken
      | false =>
        obtain ⟨hgoes, hmistaken⟩ := @mistaken_of_token decode e msgs hlike
        exact iff_of_false hgoes hmistaken
    · cases hlike : sentinelLike msg with
      | true =>
        obtain ⟨hgoes, hmistaken⟩ := @mistaken_of_like decode e msg msgs hlike htoken
        exact iff_of_false hgoes hmistaken
      | false =>
        rw [stopsAtToken_cons hlike htoken, ih, unmistaken_cons hlike htoken]
        rfl

/-- The token is `stop`, and the strategy sends it. -/
theorem token_enqueued :
    ¬ ∀ (decode : List UInt8 → PosUpdate) (e : AlgoEngine) (msgs : List (List UInt8)),
      StopsAtToken decode e msgs := by
  intro hall
  have h := hall (fun _ => ⟨"", 0, 0, false⟩) { sentinelToken := bytes "stop" } [bytes "stop" ++ [0]]
  exact absurd (h.2.mpr (List.mem_singleton_self _)) (by decide +kernel)

end CalmTrading.Listener
