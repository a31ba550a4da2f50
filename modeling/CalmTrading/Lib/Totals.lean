import Mathlib.Algebra.BigOperators.Ring.Finset
import CalmTrading.Lib.Table

namespace CalmTrading.Lib.Table

variable {K V J G : Type*} [DecidableEq K] [DecidableEq J] [AddCommGroup G]

theorem sum_fiberwise {A : Type*} (w : A → G) (f : A → J) (l : List A) (classes : Finset J)
    (h : ∀ a ∈ l, f a ∈ classes) :
    ∑ j ∈ classes, (l.map fun a => if f a = j then w a else 0).sum = (l.map w).sum := by
  induction l with
  | nil => simp
  | cons a l ih =>
    obtain ⟨hclass, hrest⟩ := List.forall_mem_cons.mp h
    simp only [List.map_cons, List.sum_cons, Finset.sum_add_distrib, ih hrest]
    rw [Finset.sum_ite_eq classes (f a), if_pos hclass]

omit [DecidableEq K] in
theorem total_fiberwise (w : K → V → G) (f : K → V → J) (m : Table K V) (classes : Finset J)
    (h : ∀ e ∈ m.entries, f e.1 e.2 ∈ classes) :
    ∑ j ∈ classes, total (fun k v => if f k v = j then w k v else 0) m = total w m :=
  sum_fiberwise (fun e : Sigma fun _ : K => V => w e.1 e.2) (fun e => f e.1 e.2) m.entries classes h

theorem total_eq_sum_keys (w : K → V → G) (m : Table K V) :
    total w m = ∑ k ∈ m.keys.toFinset, (m.lookup k).elim 0 (w k) := by
  rw [List.sum_toFinset _ m.keys_nodup, total, AList.keys, List.keys, List.map_map]
  refine congrArg List.sum (List.map_congr_left fun e he => ?_)
  have hlookup : m.lookup e.1 = some e.2 := AList.mem_lookup_iff.mpr he
  simp [hlookup]

/-- Entries without a value add nothing. -/
theorem total_join (w : K → V → G) {t : Table K (Option V)} {m : Table K V}
    (h : ∀ k, (t.lookup k).join = m.lookup k) :
    total (fun k v => v.elim 0 (w k)) t = total w m := by
  have hterm : ∀ k, (t.lookup k).elim 0 (fun v => v.elim 0 (w k)) = (m.lookup k).elim 0 (w k) := by
    intro k
    rw [← h k]
    cases t.lookup k <;> rfl
  rw [total_eq_sum_keys, total_eq_sum_keys]
  simp only [hterm]
  symm
  apply Finset.sum_subset
  · intro k hk
    rw [List.mem_toFinset, ← AList.mem_keys, ← AList.lookup_isSome] at hk ⊢
    rw [← h k] at hk
    cases ht : t.lookup k with
    | none => simp [ht] at hk
    | some v => rfl
  · intro k _ hk
    rw [List.mem_toFinset, ← AList.mem_keys, ← AList.lookup_eq_none] at hk
    rw [hk]
    rfl

end CalmTrading.Lib.Table
