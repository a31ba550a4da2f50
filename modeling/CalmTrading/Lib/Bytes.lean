import Mathlib.Data.List.TakeWhile
import Mathlib.Data.Nat.Digits.Defs

namespace CalmTrading.Lib.Bytes

def bytes (s : String) : List UInt8 := s.toUTF8.data.toList

def cstr (bs : List UInt8) : Option (List UInt8) :=
  if 0 ∈ bs then some (bs.takeWhile (· ≠ 0)) else none

/-- What `strncpy` puts into a field of `n` bytes. -/
def strncpy (n : Nat) (src : List UInt8) : List UInt8 :=
  let text := src.takeWhile (· ≠ 0)
  text.take n ++ List.replicate (n - text.length) 0

theorem takeWhile_ne_zero {bs : List UInt8} (h : 0 ∉ bs) : bs.takeWhile (· ≠ 0) = bs := by
  apply List.takeWhile_eq_self_iff.mpr
  intro b hb
  simpa using fun he : b = 0 => h (he ▸ hb)

theorem zero_notMem_takeWhile (bs : List UInt8) : 0 ∉ bs.takeWhile (· ≠ 0) := by
  intro hmem
  simpa using List.mem_takeWhile_imp hmem

theorem takeWhile_append_zero {text : List UInt8} (h : 0 ∉ text) (rest : List UInt8) :
    (text ++ 0 :: rest).takeWhile (· ≠ 0) = text := by
  rw [List.takeWhile_append_of_pos]
  · simp
  · intro b hb
    simpa using fun he : b = 0 => h (he ▸ hb)

theorem takeWhile_append_of_mem {bs : List UInt8} (h : 0 ∈ bs) (rest : List UInt8) :
    (bs ++ rest).takeWhile (· ≠ 0) = bs.takeWhile (· ≠ 0) := by
  induction bs with
  | nil => simp at h
  | cons b bs ih =>
    by_cases hb : b = 0
    · simp [hb]
    · have hmem : 0 ∈ bs := (List.mem_cons.mp h).resolve_left (Ne.symm hb)
      rw [List.cons_append, List.takeWhile_cons_of_pos (by simpa using hb), ih hmem,
        List.takeWhile_cons_of_pos (by simpa using hb)]

theorem length_takeWhile_lt {bs : List UInt8} (h : 0 ∈ bs) :
    (bs.takeWhile (· ≠ 0)).length < bs.length := by
  induction bs with
  | nil => simp at h
  | cons b bs ih =>
    by_cases hb : b = 0
    · simp [hb]
    · have hlt := ih ((List.mem_cons.mp h).resolve_left (Ne.symm hb))
      rw [List.takeWhile_cons_of_pos (by simpa using hb)]
      simpa using hlt

theorem length_strncpy (n : Nat) (src : List UInt8) : (strncpy n src).length = n := by
  simp only [strncpy, List.length_append, List.length_take, List.length_replicate]
  omega

theorem strncpy_of_fits {n : Nat} {src : List UInt8} (h : 0 ∉ src) (hn : src.length < n) :
    strncpy n src = src ++ 0 :: List.replicate (n - src.length - 1) 0 := by
  have hpad : n - src.length = n - src.length - 1 + 1 := by omega
  rw [strncpy, takeWhile_ne_zero h, List.take_of_length_le (Nat.le_of_lt hn), hpad,
    List.replicate_succ]
  rfl

/-- A text comes back from a field exactly if it has no NUL and leaves room for one. -/
theorem cstr_strncpy_iff {n : Nat} {src : List UInt8} :
    cstr (strncpy n src) = some src ↔ 0 ∉ src ∧ src.length < n := by
  constructor
  · intro h
    rw [cstr] at h
    split at h
    · next hmem =>
      have htext := Option.some.inj h
      have hnul : 0 ∉ src := htext ▸ zero_notMem_takeWhile _
      have hlt := length_takeWhile_lt hmem
      rw [htext, length_strncpy] at hlt
      exact ⟨hnul, hlt⟩
    · cases h
  · rintro ⟨hnul, hlt⟩
    rw [strncpy_of_fits hnul hlt, cstr, takeWhile_append_zero hnul, if_pos (by simp)]

def toBytes (w n : Nat) : List UInt8 := (List.range w).map fun i => UInt8.ofNat (n / 256 ^ i)

def ofBytes (bs : List UInt8) : Nat := Nat.ofDigits 256 (bs.map UInt8.toNat)

@[simp] theorem length_toBytes (w n : Nat) : (toBytes w n).length = w := by simp [toBytes]

theorem ofBytes_toBytes (w n : Nat) : ofBytes (toBytes w n) = n % 256 ^ w := by
  induction w with
  | zero => simp [ofBytes, toBytes, Nat.mod_one]
  | succ w ih =>
    have hsnoc : ofBytes (toBytes (w + 1) n) =
        ofBytes (toBytes w n) + 256 ^ w * (n / 256 ^ w % 256) := by
      simp only [ofBytes, toBytes, List.range_succ, List.map_append, List.map_cons, List.map_nil,
        Nat.ofDigits_append, Nat.ofDigits_singleton, List.length_map, List.length_range]
      simp
    rw [hsnoc, ih, Nat.mod_pow_succ]

theorem ofBytes_toBytes_word (x : UInt64) : UInt64.ofNat (ofBytes (toBytes 8 x.toNat)) = x := by
  have hsize : (256 : Nat) ^ 8 = 2 ^ 64 := rfl
  rw [ofBytes_toBytes, hsize, Nat.mod_eq_of_lt x.toNat_lt, UInt64.ofNat_toNat]

end CalmTrading.Lib.Bytes
