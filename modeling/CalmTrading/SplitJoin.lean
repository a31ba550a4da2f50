import Mathlib.Algebra.GroupWithZero.Nat
import Mathlib.Data.List.Infix
import CalmTrading.ContractSymbol

namespace CalmTrading.SplitJoin

open Utils ContractSymbol

/-- The delimiter occurs in the string. A string is the list of its bytes, and a
byte the character of that code. -/
def Contains (s delim : String) : Prop := delim.toList <:+: s.toList

/-- The pieces join to the string, and the delimiter occurs in none of them. -/
structure Inverse (s delim : String) (pieces : List String) : Prop where
  join : delim.intercalate pieces = s
  pure : ∀ piece ∈ pieces, ¬ Contains piece delim

theorem prefix_of_find {s delim : List Char} {pos next : Nat}
    (h : find s delim pos = some next) : pos ≤ next ∧ delim <+: s.drop next := by
  have hp := List.find?_some h
  rw [Bool.and_eq_true, decide_eq_true_eq, List.isPrefixOf_iff_prefix] at hp
  exact hp

theorem isSome_find_iff {s delim : List Char} :
    (find s delim 0).isSome = true ↔ delim <:+: s := by
  constructor
  · intro h
    obtain ⟨next, hnext⟩ := Option.isSome_iff_exists.mp h
    exact (prefix_of_find hnext).2.isInfix.trans (List.drop_suffix next s).isInfix
  · rintro ⟨before, after, rfl⟩
    rw [find, List.find?_isSome]
    refine ⟨before.length, ?_, ?_⟩
    · rw [List.mem_range, List.length_append, List.length_append]
      omega
    · simp [List.isPrefixOf_iff_prefix]

/-- The loop always has enough fuel. Each match drops one character and adds one
piece, whatever the length of the delimiter. -/
theorem splitLoop_length {s delim : List Char} (hdelim : delim ≠ []) {fuel last : Nat}
    (hlast : last ≤ s.length) (hfuel : s.length < last + fuel) :
    ∃ pieces, splitLoop s delim fuel last = .ok pieces ∧ pieces ≠ [] ∧
      (pieces.map fun piece => piece.toList.length).sum + pieces.length + last =
        s.length + 1 := by
  induction fuel generalizing last with
  | zero => omega
  | succ fuel ih =>
    rw [splitLoop]
    cases hfind : find s delim last with
    | none =>
      refine ⟨[String.ofList (s.drop last)], ?_, by simp, ?_⟩
      · simp only [substr, if_pos hlast, bind, Except.bind]
      · simp
        omega
    | some next =>
      obtain ⟨hle, hprefix⟩ := prefix_of_find hfind
      have hlt : next < s.length := by
        have hlen := hprefix.length_le
        have hpos := List.length_pos_iff.mpr hdelim
        rw [List.length_drop] at hlen
        omega
      obtain ⟨rest, hrest, hne, hsum⟩ := @ih (next + 1) hlt (by omega)
      refine ⟨String.ofList ((s.take next).drop last) :: rest, ?_, List.cons_ne_nil _ _, ?_⟩
      · simp only [hrest, bind, Except.bind]
      · simp
        omega

theorem split_returns (s : String) {delim : String} (hdelim : delim ≠ "") :
    ∃ pieces, split s delim = .ok pieces ∧ pieces ≠ [] ∧
      (pieces.map fun piece => piece.toList.length).sum + pieces.length =
        s.toList.length + 1 := by
  have hne : delim.toList ≠ [] := by simpa using hdelim
  exact splitLoop_length hne (Nat.zero_le _) (by omega)

theorem two_le_length {s delim : String} {pieces : List String} (hdelim : delim ≠ "")
    (hsplit : split s delim = .ok pieces) (h : Contains s delim) : 2 ≤ pieces.length := by
  have hne : delim.toList ≠ [] := by simpa using hdelim
  obtain ⟨next, hnext⟩ := Option.isSome_iff_exists.mp (isSome_find_iff.mpr h)
  rw [split, splitLoop, hnext] at hsplit
  obtain ⟨rest, hrest, hpieces⟩ := bind_eq_ok.mp hsplit
  cases hpieces
  have hlen := (prefix_of_find hnext).2.length_le
  have hpos := List.length_pos_iff.mpr hne
  rw [List.length_drop] at hlen
  obtain ⟨rest', hrest', hnonempty, _⟩ :=
    splitLoop_length hne (show next + 1 ≤ s.toList.length by omega)
      (show s.toList.length < next + 1 + (s.toList.length + 1) by omega)
  rw [hrest] at hrest'
  cases hrest'
  have hrestpos := List.length_pos_iff.mpr hnonempty
  rw [List.length_cons]
  omega

theorem split_of_not_contains {s delim : String} (h : ¬ Contains s delim) :
    split s delim = .ok [s] := by
  have hnone : find s.toList delim.toList 0 = none := by
    rw [← Option.not_isSome_iff_eq_none]
    exact fun hsome => h (isSome_find_iff.mp hsome)
  rw [split, splitLoop, hnone]
  simp [substr, bind, Except.bind]

theorem length_intercalate (delim : String) {pieces : List String} (h : pieces ≠ []) :
    (delim.intercalate pieces).toList.length + delim.toList.length =
      (pieces.map fun piece => piece.toList.length).sum + pieces.length * delim.toList.length := by
  induction pieces with
  | nil => exact absurd rfl h
  | cons piece pieces ih =>
    cases pieces with
    | nil => simp
    | cons next rest =>
      have ih := ih (List.cons_ne_nil _ _)
      rw [String.intercalate_cons_cons, String.toList_append, String.toList_append,
        List.length_append, List.length_append, List.map_cons, List.sum_cons, List.length_cons,
        Nat.add_mul]
      omega

/-- A delimiter that occurs and is longer than one character comes back too often. -/
theorem not_join {s delim : String} {pieces : List String} (hlen : 2 ≤ delim.toList.length)
    (hsplit : split s delim = .ok pieces) (h : Contains s delim) :
    delim.intercalate pieces ≠ s := by
  have hdelim : delim ≠ "" := by
    rintro rfl
    simp at hlen
  intro hjoin
  obtain ⟨pieces', hpieces, hne, hsum⟩ := split_returns s hdelim
  rw [hsplit] at hpieces
  cases hpieces
  have htwo := two_le_length hdelim hsplit h
  have hlength := length_intercalate delim hne
  rw [hjoin] at hlength
  have hmore : (pieces.length - 1) * 2 ≤ (pieces.length - 1) * delim.toList.length :=
    Nat.mul_le_mul_left _ hlen
  have hback : pieces.length * delim.toList.length =
      (pieces.length - 1) * delim.toList.length + delim.toList.length := by
    rw [← Nat.succ_mul, Nat.succ_eq_add_one, Nat.sub_add_cancel (by omega)]
  omega

theorem notMem_of_mem_splitOn {c : Char} {s : List Char} :
    ∀ piece ∈ s.splitOn c, c ∉ piece := by
  induction s with
  | nil => simp
  | cons d s ih =>
    rw [List.splitOn_cons_eq_if_modifyHead]
    obtain ⟨first, rest, hparts⟩ := List.exists_cons_of_ne_nil (List.splitOn_ne_nil c s)
    rw [hparts] at ih ⊢
    simp only [List.mem_cons, forall_eq_or_imp] at ih
    split
    · simp only [List.mem_cons, forall_eq_or_imp]
      exact ⟨List.not_mem_nil, ih⟩
    · next hd =>
      have hne : c ≠ d := fun he => hd (by simp [he])
      simp only [List.modifyHead_cons, List.mem_cons, forall_eq_or_imp, not_or]
      exact ⟨⟨hne, ih.1⟩, ih.2⟩

theorem inverse_parts (s : String) {delim : String} {c : Char} (hdelim : delim.toList = [c]) :
    Inverse s delim (parts c s) where
  join := by
    apply String.toList_injective
    rw [String.toList_intercalate, parts, List.map_map, hdelim]
    have hid : String.toList ∘ String.ofList = id := funext fun l => String.toList_ofList
    rw [hid, List.map_id, List.intercalate_splitOn]
  pure piece hpiece := by
    obtain ⟨l, hl, rfl⟩ := List.mem_map.mp hpiece
    rw [Contains, hdelim, String.toList_ofList, List.singleton_infix_iff]
    exact notMem_of_mem_splitOn l hl

/-- `split` returns for every delimiter but the empty one. It undoes joining
exactly if the delimiter is a single character or does not occur. -/
theorem split_inverse_iff (s : String) {delim : String} (hdelim : delim ≠ "") :
    ∃ pieces, split s delim = .ok pieces ∧
      (Inverse s delim pieces ↔ delim.toList.length = 1 ∨ ¬ Contains s delim) := by
  by_cases hone : delim.toList.length = 1
  · obtain ⟨c, hc⟩ := List.length_eq_one_iff.mp hone
    exact ⟨_, split_eq s hc, iff_of_true (inverse_parts s hc) (.inl hone)⟩
  · by_cases hcontains : Contains s delim
    · obtain ⟨pieces, hsplit, _⟩ := split_returns s hdelim
      have hlen : 2 ≤ delim.toList.length := by
        have hne : delim.toList ≠ [] := by simpa using hdelim
        have hpos := List.length_pos_iff.mpr hne
        omega
      refine ⟨pieces, hsplit, iff_of_false (fun h => not_join hlen hsplit hcontains h.join) ?_⟩
      simp [hone, hcontains]
    · refine ⟨[s], split_of_not_contains hcontains, iff_of_true ⟨by simp, ?_⟩ (.inr hcontains)⟩
      intro piece hpiece
      rwa [List.mem_singleton.mp hpiece]

theorem split_inverse_single :
    ∃ pieces, split "6758-STK-JPY" "-" = .ok pieces ∧
      (Inverse "6758-STK-JPY" "-" pieces ↔ "-".toList.length = 1 ∨ ¬ Contains "6758-STK-JPY" "-") :=
  split_inverse_iff "6758-STK-JPY" (by decide)

/-- The second half of the delimiter is left on the next piece. -/
theorem split_keeps_half :
    ¬ ∀ s delim : String, delim ≠ "" →
      ∃ pieces, split s delim = .ok pieces ∧ Inverse s delim pieces := by
  intro hall
  obtain ⟨pieces, hsplit, hinverse⟩ := hall "a--b" "--" (by decide)
  have hpieces : split "a--b" "--" = .ok ["a", "-b"] := by decide +kernel
  rw [hpieces] at hsplit
  cases hsplit
  exact absurd hinverse.join (by decide)

end CalmTrading.SplitJoin
