import Mathlib.Data.List.Basic

namespace CalmTrading.Lib.Rounds

variable {K V : Type*} [DecidableEq K]

/-- In which round something was delivered, under which key, and what it was. -/
structure Delivery (K V : Type*) where
  round : Nat
  key : K
  value : V

def received (log : List (Delivery K V)) (i : Nat) (k : K) : List V :=
  (log.filter fun d => d.round = i ∧ d.key = k).map Delivery.value

@[simp] theorem received_nil (i : Nat) (k : K) : received ([] : List (Delivery K V)) i k = [] := rfl

theorem received_snoc (log : List (Delivery K V)) (d : Delivery K V) (i : Nat) (k : K) :
    received (log ++ [d]) i k =
      received log i k ++ if d.round = i ∧ d.key = k then [d.value] else [] := by
  by_cases h : d.round = i ∧ d.key = k <;> simp [received, h]

theorem mem_received {log : List (Delivery K V)} {d : Delivery K V} (hd : d ∈ log) :
    d.value ∈ received log d.round d.key :=
  List.mem_map.mpr ⟨d, List.mem_filter.mpr ⟨hd, by simp⟩, rfl⟩

theorem received_eq_nil {log : List (Delivery K V)} {i : Nat} (h : ∀ d ∈ log, d.round ≠ i) (k : K) :
    received log i k = [] := by
  rw [received, List.filter_eq_nil_iff.mpr, List.map_nil]
  intro d hd
  simp [h d hd]

/-- Every round so far has delivered what it owes, except that the last one is
still to serve the keys in `todo`. -/
structure Serves (owed : Nat → K → List V) (log : List (Delivery K V)) (rounds : Nat)
    (todo : List K) : Prop where
  served : ∀ i k, i < rounds →
    received log i k = if i + 1 = rounds ∧ k ∈ todo then [] else owed i k
  bounded : ∀ d ∈ log, d.round < rounds
  nodup : todo.Nodup

namespace Serves

variable {owed owed' : Nat → K → List V} {log : List (Delivery K V)} {n : Nat} {todo : List K}

theorem init (owed : Nat → K → List V) : Serves owed [] 0 [] where
  served _ _ h := absurd h (Nat.not_lt_zero _)
  bounded := by simp
  nodup := .nil

theorem congr (h : Serves owed log n todo) (howed : ∀ i k, i < n → owed' i k = owed i k) :
    Serves owed' log n todo where
  served i k hi := by rw [howed i k hi, h.served i k hi]
  bounded := h.bounded
  nodup := h.nodup

theorem begin (h : Serves owed log n []) (hnodup : todo.Nodup)
    (howed : ∀ k, k ∉ todo → owed n k = []) : Serves owed log (n + 1) todo where
  served i k hi := by
    by_cases hn : i = n
    · subst hn
      rw [received_eq_nil (fun d hd => Nat.ne_of_lt (h.bounded d hd))]
      by_cases hk : k ∈ todo
      · simp [hk]
      · simp [hk, howed k hk]
    · have hlt : i < n := by omega
      rw [h.served i k hlt]
      simp [hn]
  bounded d hd := Nat.lt_succ_of_lt (h.bounded d hd)
  nodup := hnodup

theorem deliver {k : K} {v : V} (h : Serves owed log (n + 1) (k :: todo)) (howed : owed n k = [v]) :
    Serves owed (log ++ [⟨n, k, v⟩]) (n + 1) todo where
  served i j hi := by
    obtain ⟨hk, _⟩ := List.nodup_cons.mp h.nodup
    rw [received_snoc, h.served i j hi]
    by_cases hj : n = i ∧ k = j
    · obtain ⟨rfl, rfl⟩ := hj
      simp [hk, howed]
    · rw [if_neg hj, List.append_nil]
      by_cases hi' : i = n
      · subst hi'
        have hne : j ≠ k := fun he => hj ⟨rfl, he.symm⟩
        simp [hne]
      · simp [hi']
  bounded d hd := by
    obtain hd | hd := List.mem_append.mp hd
    · exact h.bounded d hd
    · rw [List.mem_singleton.mp hd]
      exact Nat.lt_succ_self n
  nodup := (List.nodup_cons.mp h.nodup).2

end Serves

end CalmTrading.Lib.Rounds
