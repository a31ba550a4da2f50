import CalmTrading.Listener

namespace CalmTrading.RedisSubscribe

open Lib.Bytes Listener Listener.RedisClient

/-- Whatever the callback does, it gets the messages before the first that is the
sentinel and a NUL, in order, and the loop has ended if there is one. -/
def Exact (sentinel : List UInt8) (msgs : List (List UInt8)) : Prop :=
  ∀ (S : Type) (callback : S → List UInt8 → S) (s : S),
    subscribe callback s msgs sentinel =
      ((beforeToken sentinel msgs).foldl callback s, decide (sentinel ++ [0] ∈ msgs))

/-- The first message that is the sentinel and one more byte, if there is one,
ends in NUL. -/
def Terminated (sentinel : List UInt8) (msgs : List (List UInt8)) : Prop :=
  ∀ msg, msgs.find? (isSentinel sentinel) = some msg → msg = sentinel ++ [0]

theorem subscribe_eq {S : Type} (callback : S → List UInt8 → S) (s : S)
    (msgs : List (List UInt8)) (sentinel : List UInt8) :
    subscribe callback s msgs sentinel =
      ((msgs.takeWhile fun msg => !isSentinel sentinel msg).foldl callback s,
        msgs.any (isSentinel sentinel)) := by
  rw [subscribe]
  induction msgs generalizing s with
  | nil => rfl
  | cons msg msgs ih =>
    rw [receive]
    cases hlike : isSentinel sentinel msg with
    | true => simp [hlike]
    | false => simp [hlike, ih]

theorem foldl_snoc (got msgs : List (List UInt8)) :
    msgs.foldl (fun got msg => got ++ [msg]) got = got ++ msgs := by
  rw [List.foldl_append_eq_append, ← List.flatMap_def, List.flatMap_singleton']

theorem exact_iff {sentinel : List UInt8} {msgs : List (List UInt8)} :
    Exact sentinel msgs ↔
      (msgs.takeWhile fun msg => !isSentinel sentinel msg) = beforeToken sentinel msgs ∧
        msgs.any (isSentinel sentinel) = decide (sentinel ++ [0] ∈ msgs) := by
  constructor
  · intro h
    have hrecord := h (List (List UInt8)) (fun got msg => got ++ [msg]) []
    rw [subscribe_eq, Prod.mk.injEq] at hrecord
    rwa [foldl_snoc, foldl_snoc, List.nil_append, List.nil_append] at hrecord
  · rintro ⟨hbefore, hend⟩ S callback s
    rw [subscribe_eq, hbefore, hend]

theorem isSentinel_token (sentinel : List UInt8) : isSentinel sentinel (sentinel ++ [0]) = true :=
  isSentinel_iff.mpr ⟨0, rfl⟩

theorem ne_token {sentinel msg : List UInt8} (hlike : isSentinel sentinel msg = false) :
    msg ≠ sentinel ++ [0] := by
  rintro rfl
  rw [isSentinel_token] at hlike
  cases hlike

theorem takeWhile_not_like {sentinel : List UInt8} {before : List (List UInt8)}
    (h : ∀ msg ∈ before, isSentinel sentinel msg = false) (rest : List (List UInt8)) :
    (before ++ rest).takeWhile (fun msg => !isSentinel sentinel msg) =
      before ++ rest.takeWhile fun msg => !isSentinel sentinel msg :=
  List.takeWhile_append_of_pos fun msg hmsg => by simpa using h msg hmsg

theorem beforeToken_append {sentinel : List UInt8} {before : List (List UInt8)}
    (h : ∀ msg ∈ before, isSentinel sentinel msg = false) (rest : List (List UInt8)) :
    beforeToken sentinel (before ++ rest) = before ++ beforeToken sentinel rest :=
  List.takeWhile_append_of_pos fun msg hmsg => by simpa using ne_token (h msg hmsg)

theorem exact_of_none {sentinel : List UInt8} {msgs : List (List UInt8)}
    (h : ∀ msg ∈ msgs, isSentinel sentinel msg = false) : Exact sentinel msgs := by
  have hall := takeWhile_not_like h []
  have hbefore := beforeToken_append h []
  have hmem : sentinel ++ [0] ∉ msgs := fun hmem => ne_token (h _ hmem) rfl
  rw [List.append_nil] at hall hbefore
  rw [exact_iff, hall, hbefore, decide_eq_false hmem, List.any_eq_false]
  exact ⟨rfl, fun msg hmsg => by simp [h msg hmsg]⟩

theorem exact_append_iff {sentinel msg : List UInt8} {before : List (List UInt8)}
    (h : ∀ msg ∈ before, isSentinel sentinel msg = false) (hlike : isSentinel sentinel msg = true)
    (rest : List (List UInt8)) :
    Exact sentinel (before ++ msg :: rest) ↔ msg = sentinel ++ [0] := by
  rw [exact_iff, takeWhile_not_like h, beforeToken_append h,
    List.takeWhile_cons_of_neg (by simp [hlike])]
  constructor
  · rintro ⟨hbefore, -⟩
    by_contra hne
    rw [beforeToken_cons hne, List.append_cancel_left_eq] at hbefore
    cases hbefore
  · rintro rfl
    rw [beforeToken_token]
    simp [hlike]

/-- The callback gets exactly the messages before the token, and the loop ends
there, as far as no other byte stands behind the sentinel first. -/
theorem subscribe_exact_iff (sentinel : List UInt8) (msgs : List (List UInt8)) :
    Exact sentinel msgs ↔ Terminated sentinel msgs := by
  rw [Terminated]
  cases hfind : msgs.find? (isSentinel sentinel) with
  | none =>
    have hnone : ∀ msg ∈ msgs, isSentinel sentinel msg = false := by simpa using hfind
    exact iff_of_true (exact_of_none hnone) (by simp)
  | some msg =>
    obtain ⟨hlike, before, rest, rfl, hnot⟩ := List.find?_eq_some_iff_append.mp hfind
    have hnot : ∀ msg ∈ before, isSentinel sentinel msg = false := by simpa using hnot
    rw [exact_append_iff hnot hlike]
    simp

/-- The letter behind the sentinel is not looked at. -/
theorem other_byte_ends :
    ¬ Exact (bytes "sentinel") [bytes "sentinelA", bytes "sentinel" ++ [0]] := by
  have hlike : isSentinel (bytes "sentinel") (bytes "sentinelA") = true := by decide
  rw [← List.nil_append (bytes "sentinelA" :: _), exact_append_iff (by simp) hlike]
  decide

end CalmTrading.RedisSubscribe
