import CalmTrading.Lib.Bytes

namespace CalmTrading.PosMessages

open Lib.Bytes

/-- The layout of `PosMsg`: 32 bytes of symbol, a double and a `long long`. -/
inductive Field
  | symbol | pos | timestamp
  deriving DecidableEq

structure Read where
  field : Field
  offset : Nat
  deriving DecidableEq

def sizeofPosMsg : Nat := 48

/-- The double is kept as its bits. -/
structure PosUpdate where
  symbol : List UInt8
  pos : UInt64
  timestamp : Int64
  deriving DecidableEq

def posAt (data : List UInt8) : UInt64 := .ofNat (ofBytes ((data.drop 32).take 8))

def timestampAt (data : List UInt8) : Int64 :=
  (UInt64.ofNat (ofBytes ((data.drop 40).take 8))).toInt64

/-- The bytes that the conversions of the three fields read. The symbol is read
to its NUL wherever that is. -/
def reads (symbol : List UInt8) : List Read :=
  (List.range (symbol.length + 1)).map (⟨.symbol, ·⟩) ++
    (List.range' 32 8).map (⟨.pos, ·⟩) ++ (List.range' 40 8).map (⟨.timestamp, ·⟩)

/-- What is read and what is enqueued. `data` is the memory from the message on,
as far as it can be read; to read on is a fault. The length is not looked at. -/
def mqMessageCb (data : List UInt8) (_len : Nat) : Option (List Read × Option PosUpdate) :=
  match cstr data with
  | none => none
  | some symbol =>
    if sizeofPosMsg ≤ data.length then
      some (reads symbol, some ⟨symbol, posAt data, timestampAt data⟩)
    else none

/-- The update that a message of the right size stands for. A symbol without a
NUL takes the whole field. -/
def decoded (msg : List UInt8) : PosUpdate where
  symbol := (msg.take 32).takeWhile (· ≠ 0)
  pos := posAt msg
  timestamp := timestampAt msg

/-- A message, with whatever comes behind it in memory, is read within its own
bytes, the symbol within its field, and an update is enqueued if and only if the
size is right, with what the fields hold. -/
def Exact (msg beyond : List UInt8) : Prop :=
  ∃ rs, mqMessageCb (msg ++ beyond) msg.length =
      some (rs, if msg.length = sizeofPosMsg then some (decoded msg) else none) ∧
    ∀ r ∈ rs, r.offset < msg.length ∧ (r.field = .symbol → r.offset < 32)

/-- A symbol of at most 31 characters other than NUL. -/
structure ShortSymbol where
  text : List UInt8
  noNul : 0 ∉ text
  fits : text.length ≤ 31

def encode (symbol : List UInt8) (pos : UInt64) (timestamp : Int64) : List UInt8 :=
  strncpy 32 symbol ++ (toBytes 8 pos.toNat ++ toBytes 8 timestamp.toUInt64.toNat)

theorem length_encode (symbol : List UInt8) (pos : UInt64) (timestamp : Int64) :
    (encode symbol pos timestamp).length = sizeofPosMsg := by
  simp [encode, length_strncpy, sizeofPosMsg]

theorem mem_reads {symbol : List UInt8} {r : Read} :
    r ∈ reads symbol ↔ (r.field = .symbol ∧ r.offset ≤ symbol.length) ∨
      (r.field = .pos ∧ 32 ≤ r.offset ∧ r.offset < 40) ∨
      (r.field = .timestamp ∧ 40 ≤ r.offset ∧ r.offset < 48) := by
  obtain ⟨field, offset⟩ := r
  simp only [reads, List.mem_append, List.mem_map, List.mem_range, List.mem_range'_1,
    Read.mk.injEq, Nat.lt_add_one_iff]
  cases field with
  | symbol => simp
  | pos => simp
  | timestamp => simp

theorem posAt_append {msg : List UInt8} (h : msg.length = sizeofPosMsg) (beyond : List UInt8) :
    posAt (msg ++ beyond) = posAt msg := by
  rw [posAt, posAt, List.drop_append_of_le_length (by simp [h, sizeofPosMsg]),
    List.take_append_of_le_length (by simp [h, sizeofPosMsg])]

theorem timestampAt_append {msg : List UInt8} (h : msg.length = sizeofPosMsg)
    (beyond : List UInt8) : timestampAt (msg ++ beyond) = timestampAt msg := by
  rw [timestampAt, timestampAt, List.drop_append_of_le_length (by simp [h, sizeofPosMsg]),
    List.take_append_of_le_length (by simp [h, sizeofPosMsg])]

theorem takeWhile_field {msg : List UInt8} (h : 0 ∈ msg.take 32) (beyond : List UInt8) :
    (msg ++ beyond).takeWhile (· ≠ 0) = (msg.take 32).takeWhile (· ≠ 0) := by
  have hsplit : msg ++ beyond = msg.take 32 ++ (msg.drop 32 ++ beyond) := by
    rw [← List.append_assoc, List.take_append_drop]
  rw [hsplit, takeWhile_append_of_mem h]

theorem mqMessageCb_of_nul {msg : List UInt8} (hlen : msg.length = sizeofPosMsg)
    (h : 0 ∈ msg.take 32) (beyond : List UInt8) (len : Nat) :
    mqMessageCb (msg ++ beyond) len =
      some (reads (decoded msg).symbol, some (decoded msg)) := by
  have hmem : 0 ∈ msg ++ beyond := List.mem_append_left _ (List.mem_of_mem_take h)
  have hsize : sizeofPosMsg ≤ (msg ++ beyond).length := by
    rw [List.length_append, hlen]
    omega
  simp only [mqMessageCb, cstr, if_pos hmem, if_pos hsize, takeWhile_field h, posAt_append hlen,
    timestampAt_append hlen, decoded]

theorem le_length_symbol {msg : List UInt8} (hlen : msg.length = sizeofPosMsg)
    (h : 0 ∉ msg.take 32) (beyond : List UInt8) :
    32 ≤ ((msg ++ beyond).takeWhile (· ≠ 0)).length := by
  have hsplit : msg ++ beyond = msg.take 32 ++ (msg.drop 32 ++ beyond) := by
    rw [← List.append_assoc, List.take_append_drop]
  have hfield : (msg.take 32).length = 32 := by simp [hlen, sizeofPosMsg]
  rw [hsplit, List.takeWhile_append_of_pos, List.length_append, hfield]
  · omega
  · intro b hb
    simpa using fun he : b = 0 => h (he ▸ hb)

theorem exact_iff (msg beyond : List UInt8) :
    Exact msg beyond ↔ msg.length = sizeofPosMsg ∧ 0 ∈ msg.take 32 := by
  constructor
  · rintro ⟨rs, hrun, hreads⟩
    simp only [mqMessageCb, cstr] at hrun
    split at hrun
    · cases hrun
    · next symbol hsymbol =>
      split at hsymbol
      · cases hsymbol
        split at hrun
        · obtain ⟨rfl, henqueued⟩ := Prod.mk.inj (Option.some.inj hrun)
          have hlen : msg.length = sizeofPosMsg := by
            by_contra hne
            rw [if_neg hne] at henqueued
            cases henqueued
          refine ⟨hlen, ?_⟩
          by_contra hnul
          have hle := le_length_symbol hlen hnul beyond
          have hlast := (hreads ⟨.symbol, _⟩ (mem_reads.mpr (.inl ⟨rfl, Nat.le_refl _⟩))).2 rfl
          dsimp only at hlast
          omega
        · cases hrun
      · cases hsymbol
  · rintro ⟨hlen, hnul⟩
    have hshort : (decoded msg).symbol.length < (msg.take 32).length := length_takeWhile_lt hnul
    have htake : (msg.take 32).length ≤ 32 := List.length_take_le _ _
    refine ⟨reads (decoded msg).symbol, ?_, fun r hr => ?_⟩
    · rw [mqMessageCb_of_nul hlen hnul, if_pos hlen]
    · rw [hlen, sizeofPosMsg]
      obtain ⟨hfield, hoffset⟩ | ⟨hfield, hoffset⟩ | ⟨hfield, hoffset⟩ := mem_reads.mp hr
      · exact ⟨by omega, fun _ => by omega⟩
      · exact ⟨by omega, fun hsymbol => by simp [hfield] at hsymbol⟩
      · exact ⟨by omega, fun hsymbol => by simp [hfield] at hsymbol⟩

theorem decoded_encode (symbol : ShortSymbol) (pos : UInt64) (timestamp : Int64) :
    decoded (encode symbol.text pos timestamp) = ⟨symbol.text, pos, timestamp⟩ := by
  have hfield : (encode symbol.text pos timestamp).take 32 = strncpy 32 symbol.text := by
    rw [encode, List.take_left' (length_strncpy _ _)]
  have hrest : (encode symbol.text pos timestamp).drop 32 =
      toBytes 8 pos.toNat ++ toBytes 8 timestamp.toUInt64.toNat := by
    rw [encode, List.drop_left' (length_strncpy _ _)]
  have hsymbol : (strncpy 32 symbol.text).takeWhile (· ≠ 0) = symbol.text := by
    have hle := symbol.fits
    rw [strncpy_of_fits symbol.noNul (by omega), takeWhile_append_zero symbol.noNul]
  have hpos : posAt (encode symbol.text pos timestamp) = pos := by
    rw [posAt, hrest, List.take_left' (length_toBytes _ _), ofBytes_toBytes_word]
  have htimestamp : timestampAt (encode symbol.text pos timestamp) = timestamp := by
    have hdrop : (encode symbol.text pos timestamp).drop 40 =
        toBytes 8 timestamp.toUInt64.toNat := by
      have h40 : (40 : Nat) = 32 + 8 := rfl
      rw [h40, ← List.drop_drop, hrest, List.drop_left' (length_toBytes _ _)]
    rw [timestampAt, hdrop, List.take_of_length_le (by simp), ofBytes_toBytes_word,
      Int64.toInt64_toUInt64]
  rw [decoded, hfield, hsymbol, hpos, htimestamp]

/-- A message is decoded safely and exactly if and only if it has the size of
`PosMsg` and a NUL in its symbol field. Decoding undoes encoding. -/
theorem decoding_exact_iff (msg beyond : List UInt8) :
    (Exact msg beyond ↔ msg.length = sizeofPosMsg ∧ 0 ∈ msg.take 32) ∧
      ∀ (symbol : ShortSymbol) (pos : UInt64) (timestamp : Int64) (len : Nat),
        mqMessageCb (encode symbol.text pos timestamp ++ beyond) len =
          some (reads symbol.text, some ⟨symbol.text, pos, timestamp⟩) := by
  refine ⟨exact_iff msg beyond, fun symbol pos timestamp len => ?_⟩
  have hnul : 0 ∈ (encode symbol.text pos timestamp).take 32 := by
    have hle := symbol.fits
    rw [encode, List.take_left' (length_strncpy _ _), strncpy_of_fits symbol.noNul (by omega)]
    exact List.mem_append_right _ List.mem_cons_self
  rw [mqMessageCb_of_nul (length_encode _ _ _) hnul, decoded_encode]

/-- A word of eight bytes arrives, with its NUL. What is behind it in memory
becomes the target position. -/
theorem short_message_decoded : ¬ ∀ msg beyond : List UInt8, Exact msg beyond := by
  intro hall
  have h := (exact_iff (bytes "shutdown" ++ [0]) (List.replicate 64 7)).mp (hall _ _)
  exact absurd h.1 (by decide +kernel)

end CalmTrading.PosMessages
