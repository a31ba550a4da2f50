import Mathlib.Data.List.AList
import Mathlib.Algebra.BigOperators.Group.List.Basic

namespace CalmTrading.Lib

abbrev Table (K V : Type*) := AList fun _ : K => V

namespace Table

variable {K V G : Type*} [DecidableEq K]

theorem mem_iff_lookup {m : Table K V} {k : K} : k ∈ m ↔ ∃ v, m.lookup k = some v := by
  rw [← AList.lookup_isSome, Option.isSome_iff_exists]

theorem lookup_insert_ite (m : Table K V) (k j : K) (v : V) :
    (m.insert k v).lookup j = if j = k then some v else m.lookup j := by
  by_cases h : j = k
  · subst h; simp
  · simp [h]

theorem entries_perm {m n : Table K V} (h : ∀ k, m.lookup k = n.lookup k) :
    m.entries.Perm n.entries := by
  refine List.lookup_ext m.nodupKeys n.nodupKeys fun k v => ?_
  have hk := h k
  simp only [AList.lookup] at hk
  rw [hk]

omit [DecidableEq K] in
theorem keys_perm {m n : Table K V} (h : ∀ k, k ∈ m ↔ k ∈ n) : m.keys.Perm n.keys :=
  (List.perm_ext_iff_of_nodup m.keys_nodup n.keys_nodup).mpr h

section Total

variable [AddCommGroup G]

def total (w : K → V → G) (m : Table K V) : G := (m.entries.map fun e => w e.1 e.2).sum

omit [DecidableEq K] in
@[simp] theorem total_empty (w : K → V → G) : total w (∅ : Table K V) = 0 := rfl

theorem sum_kerase (w : K → V → G) (k : K) (l : List (Sigma fun _ : K => V)) :
    ((l.kerase k).map fun e => w e.1 e.2).sum + (l.dlookup k).elim 0 (w k) =
      (l.map fun e => w e.1 e.2).sum := by
  induction l with
  | nil => simp
  | cons e l ih =>
    obtain ⟨j, v⟩ := e
    by_cases h : k = j
    · subst h
      simp [List.kerase_cons_eq, add_comm]
    · rw [List.kerase_cons_ne (by simpa using h), List.dlookup_cons_ne _ _ (by simpa using h)]
      simp only [List.map_cons, List.sum_cons, add_assoc, ih]

theorem total_insert (w : K → V → G) (m : Table K V) (k : K) (v : V) :
    total w (m.insert k v) = total w m - (m.lookup k).elim 0 (w k) + w k v := by
  have h := sum_kerase w k m.entries
  simp only [total, AList.entries_insert, AList.lookup, List.map_cons, List.sum_cons] at h ⊢
  rw [← h, add_sub_cancel_right, add_comm]

theorem total_congr (w : K → V → G) {m n : Table K V} (h : ∀ k, m.lookup k = n.lookup k) :
    total w m = total w n :=
  ((entries_perm h).map _).sum_eq

end Total

/-- Of distinct keys, turning one from satisfying a test to failing it lowers
the count by one. -/
theorem countP_drop {l : List K} (hl : l.Nodup) {p q : K → Bool} {a : K} (ha : a ∈ l)
    (hp : p a = true) (hq : q a = false) (hother : ∀ b, b ≠ a → q b = p b) :
    l.countP q + 1 = l.countP p := by
  induction l with
  | nil => simp at ha
  | cons b l ih =>
    rw [List.nodup_cons] at hl
    by_cases hb : b = a
    · subst hb
      have hsame : l.countP q = l.countP p := List.countP_congr fun c hc => by
        rw [hother c fun he => hl.1 (he ▸ hc)]
      simp [hp, hq, hsame]
    · have hmem : a ∈ l := (List.mem_cons.mp ha).resolve_left (Ne.symm hb)
      have := ih hl.2 hmem
      simp only [List.countP_cons, hother b hb]
      omega

end Table

end CalmTrading.Lib
