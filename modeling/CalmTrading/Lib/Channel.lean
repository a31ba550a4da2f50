import CalmTrading.Lib.Table

namespace CalmTrading.Lib.Channel

variable {K R : Type*} [DecidableEq K] (key : R → K)

def latest (k : K) (pipe : List R) : Option R := (pipe.filter fun r => key r = k).getLast?

/-- What a reader that overwrites its table with every record it takes from the
channel holds for a key once the channel has drained. -/
def seen (book : Table K R) (pipe : List R) (k : K) : Option R :=
  (latest key k pipe).or (book.lookup k)

variable {key}

@[simp] theorem seen_nil (book : Table K R) (k : K) : seen key book [] k = book.lookup k := by
  simp [seen, latest]

theorem latest_append (key : R → K) (k : K) (p q : List R) :
    latest key k (p ++ q) = (latest key k q).or (latest key k p) := by
  simp only [latest, List.filter_append, List.getLast?_append]

theorem seen_emit (book : Table K R) (pipe : List R) (r : R) (k : K) :
    seen key book (pipe ++ [r]) k = if k = key r then some r else seen key book pipe k := by
  by_cases h : key r = k
  · subst h
    simp [seen, latest]
  · simp [seen, latest, h, Ne.symm h]

theorem seen_deliver (book : Table K R) (pipe : List R) (r : R) (k : K) :
    seen key (book.insert (key r) r) pipe k = seen key book (r :: pipe) k := by
  have hcons := latest_append key k [r] pipe
  rw [List.singleton_append] at hcons
  simp only [seen, hcons, Option.or_assoc]
  congr 1
  by_cases h : key r = k
  · subst h
    simp [latest]
  · simp [latest, h, AList.lookup_insert_ne (Ne.symm h)]

theorem seen_insert_absent {book : Table K R} {pipe : List R} {k j : K} {r v : R}
    (hj : j ∉ book) (hk : seen key book pipe k = some r) :
    seen key (book.insert j v) pipe k = some r := by
  by_cases h : k = j
  · subst h
    rw [seen, AList.lookup_eq_none.mpr hj, Option.or_none] at hk
    simp [seen, hk]
  · simpa [seen, AList.lookup_insert_ne h] using hk

theorem seen_congr (book : Table K R) {p q : List R} {k : K}
    (h : (p.filter fun r => key r = k) = q.filter fun r => key r = k) :
    seen key book p k = seen key book q k := by
  simp only [seen, latest, h]

theorem seen_swap (book : Table K R) (p : List R) {q q' : List R}
    (h : ∀ r ∈ q, ∀ r' ∈ q', key r ≠ key r') (k : K) :
    seen key book (p ++ q ++ q') k = seen key book (p ++ q' ++ q) k := by
  apply seen_congr book
  simp only [List.filter_append, List.append_assoc]
  congr 1
  by_cases hk : ∃ r ∈ q, key r = k
  · obtain ⟨r, hr, rfl⟩ := hk
    have hnone : (q'.filter fun r' => key r' = key r) = [] :=
      List.filter_eq_nil_iff.mpr fun r' hr' => by simpa using Ne.symm (h r hr r' hr')
    simp [hnone]
  · have hnone : (q.filter fun r => key r = k) = [] :=
      List.filter_eq_nil_iff.mpr fun r hr he => hk ⟨r, hr, by simpa using he⟩
    simp [hnone]

section Lagging

variable {A M : Type*} {Shows : List A → M → Prop} {done all : List A} {msgs : List M}

/-- Each message in the channel shows the history as it was when it was sent.
`done` is the part that the messages taken out so far have shown. -/
inductive Lagging (Shows : List A → M → Prop) : List A → List M → List A → Prop
  | nil {all : List A} : Lagging Shows all [] all
  | cons {done all : List A} {a : A} {m : M} {msgs : List M} (hm : Shows (done ++ [a]) m)
      (h : Lagging Shows (done ++ [a]) msgs all) : Lagging Shows done (m :: msgs) all

theorem Lagging.length (h : Lagging Shows done msgs all) :
    all.length = done.length + msgs.length := by
  induction h with
  | nil => rfl
  | cons _ _ ih =>
    rw [ih]
    simp only [List.length_append, List.length_cons, List.length_nil]
    omega

theorem Lagging.initial (h : Lagging Shows done msgs all) : done <+: all := by
  induction h with
  | nil => exact List.prefix_rfl
  | cons _ _ ih => exact (List.prefix_append _ _).trans ih

theorem Lagging.eq_take (h : Lagging Shows done msgs all) :
    all.take (all.length - msgs.length) = done := by
  have hlen : all.length - msgs.length = done.length := by
    rw [h.length]
    omega
  rw [hlen, ← List.prefix_iff_eq_take.mp h.initial]

theorem Lagging.send (h : Lagging Shows done msgs all) {a : A} {m : M}
    (hm : Shows (all ++ [a]) m) : Lagging Shows done (msgs ++ [m]) (all ++ [a]) := by
  induction h with
  | nil => exact .cons hm .nil
  | cons hm' _ ih => exact .cons hm' (ih hm)

end Lagging

end CalmTrading.Lib.Channel
