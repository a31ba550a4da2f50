import Mathlib.Data.Nat.Basic

namespace CalmTrading.Lib.Decimal

def value (s : String) : Nat := Nat.ofDigitChars 10 s.toList 0

def IsDecimal (s : String) : Prop := ∃ n : Nat, s = n.repr

@[simp] theorem value_repr (n : Nat) : value n.repr = n := by
  rw [value, Nat.toList_repr, Nat.ofDigitChars_ten_toDigits]

theorem digit_range {c : Char} (h : c.isDigit = true) : 48 ≤ c.toNat ∧ c.toNat ≤ 57 := by
  simpa [Char.isDigit, UInt32.le_iff_toNat_le] using h

/-- Of two numbers with as many digits the smaller one comes first. -/
theorem ofDigitChars_lt_iff {cs ds : List Char} (hlen : cs.length = ds.length)
    (hcs : ∀ c ∈ cs, c.isDigit = true) (hds : ∀ d ∈ ds, d.isDigit = true) (m n : Nat) :
    Nat.ofDigitChars 10 cs m < Nat.ofDigitChars 10 ds n ↔ m < n ∨ m = n ∧ cs < ds := by
  induction cs generalizing ds m n with
  | nil =>
    rw [List.length_eq_zero_iff.mp hlen.symm]
    simp
  | cons c cs ih =>
    cases ds with
    | nil => cases hlen
    | cons d ds =>
      have hc := digit_range (hcs c List.mem_cons_self)
      have hd := digit_range (hds d List.mem_cons_self)
      have hlt : c < d ↔ c.toNat < d.toNat := Iff.rfl
      have heq : c = d ↔ c.toNat = d.toNat := Char.toNat_inj.symm
      have htail := ih (Nat.succ.inj hlen) (fun a ha => hcs a (List.mem_cons_of_mem c ha))
        fun a ha => hds a (List.mem_cons_of_mem d ha)
      have hzero : '0'.toNat = 48 := rfl
      rw [Nat.ofDigitChars_cons, Nat.ofDigitChars_cons, htail, List.cons_lt_cons_iff, hlt, heq,
        hzero]
      constructor
      · rintro (hlt | ⟨heq, htail⟩)
        · omega
        · by_cases hmn : m = n
          · exact .inr ⟨hmn, .inr ⟨by omega, htail⟩⟩
          · omega
      · rintro (hlt | ⟨rfl, hlt | ⟨heq, htail⟩⟩)
        · omega
        · omega
        · exact .inr ⟨by omega, htail⟩

theorem lt_iff_value_lt {s t : String} (hs : IsDecimal s) (ht : IsDecimal t)
    (hlen : s.length = t.length) : s < t ↔ value s < value t := by
  obtain ⟨m, rfl⟩ := hs
  obtain ⟨n, rfl⟩ := ht
  have hdigits : ∀ k : Nat, ∀ c ∈ k.repr.toList, c.isDigit = true := by
    intro k c hc
    rw [Nat.toList_repr] at hc
    exact Nat.isDigit_of_mem_toDigits (by decide) (by decide) hc
  have hlists : m.repr.toList.length = n.repr.toList.length := by
    rwa [String.length_toList, String.length_toList]
  rw [String.lt_iff, value, value, ofDigitChars_lt_iff hlists (hdigits m) (hdigits n)]
  simp

theorem value_lt_of_length_lt {s t : String} (hs : IsDecimal s) (ht : IsDecimal t)
    (hlen : s.length < t.length) : value s < value t := by
  obtain ⟨m, rfl⟩ := hs
  obtain ⟨n, rfl⟩ := ht
  have hm : m < 10 ^ m.repr.length := (Nat.length_repr_le_iff Nat.length_repr_pos).mp le_rfl
  have hn : ¬ n < 10 ^ m.repr.length := fun hn =>
    Nat.not_le_of_lt hlen ((Nat.length_repr_le_iff Nat.length_repr_pos).mpr hn)
  rw [value_repr, value_repr]
  omega

theorem lt_iff_of_shorter_first {s t : String} (hs : IsDecimal s) (ht : IsDecimal t)
    (hst : s.length < t.length → s < t) (hts : t.length < s.length → t < s) :
    s < t ↔ value s < value t := by
  obtain hlt | heq | hgt := Nat.lt_trichotomy s.length t.length
  · exact iff_of_true (hst hlt) (value_lt_of_length_lt hs ht hlt)
  · exact lt_iff_value_lt hs ht heq
  · refine iff_of_false (String.lt_asymm (hts hgt)) ?_
    exact Nat.lt_asymm (value_lt_of_length_lt ht hs hgt)

end CalmTrading.Lib.Decimal
