import Mathlib.Data.List.Basic

namespace CalmTrading.Lib

/-- Lengths written in a fixed width, each before what has that length. -/
structure Framing (α : Type*) where
  width : Nat
  max : Nat
  header : Nat → List α
  width_pos : 0 < width
  length_header : ∀ n, (header n).length = width
  header_inj : ∀ {m n}, m ≤ max → n ≤ max → header m = header n → m = n

namespace Framing

variable {α : Type*} (F : Framing α)

/-- What can be sent in a frame. -/
@[ext] structure Message where
  data : List α
  ne_nil : data ≠ []
  length_le : data.length ≤ F.max

variable {F}

def frame (m : F.Message) : List α := F.header m.data.length ++ m.data

def stream (ms : List F.Message) : List α := ms.flatMap frame

@[simp] theorem stream_nil : stream ([] : List F.Message) = [] := rfl

@[simp] theorem stream_cons (m : F.Message) (ms : List F.Message) :
    stream (m :: ms) = F.header m.data.length ++ (m.data ++ stream ms) := by
  simp [stream, frame]

@[simp] theorem stream_append (ms ns : List F.Message) :
    stream (ms ++ ns) = stream ms ++ stream ns := List.flatMap_append

theorem eq_nil_of_length_lt {ms : List F.Message} (h : (stream ms).length < F.width) : ms = [] := by
  cases ms with
  | nil => rfl
  | cons m rest =>
    rw [stream_cons, List.length_append, F.length_header] at h
    omega

theorem stream_eq_append {ms : List F.Message} {hs xs : List α} (hlen : hs.length = F.width)
    (h : stream ms = hs ++ xs) :
    ∃ m rest, ms = m :: rest ∧ hs = F.header m.data.length ∧ xs = m.data ++ stream rest := by
  cases ms with
  | nil =>
    have hpos := F.width_pos
    rw [stream_nil, List.nil_eq, List.append_eq_nil_iff] at h
    rw [h.1, List.length_nil] at hlen
    omega
  | cons m rest =>
    rw [stream_cons] at h
    obtain ⟨hheader, hdata⟩ := List.append_inj h ((F.length_header _).trans hlen.symm)
    exact ⟨m, rest, rfl, hheader.symm, hdata.symm⟩

theorem stream_eq_header {ms : List F.Message} {n : Nat} {xs : List α} (hn : n ≤ F.max)
    (h : stream ms = F.header n ++ xs) :
    ∃ m rest, ms = m :: rest ∧ m.data.length = n ∧ xs = m.data ++ stream rest := by
  obtain ⟨m, rest, hms, hheader, hdata⟩ := stream_eq_append (F.length_header n) h
  exact ⟨m, rest, hms, (F.header_inj hn m.length_le hheader).symm, hdata⟩

theorem stream_prefix {ms ns : List F.Message} {xs : List α} (h : stream ms ++ xs = stream ns) :
    ∃ rest, ns = ms ++ rest ∧ stream rest = xs := by
  induction ms generalizing ns with
  | nil => exact ⟨ns, rfl, h.symm⟩
  | cons m ms ih =>
    rw [stream_cons, List.append_assoc] at h
    obtain ⟨n, rest, rfl, hlen, hdata⟩ := stream_eq_header m.length_le h.symm
    rw [List.append_assoc] at hdata
    obtain ⟨heq, htail⟩ := List.append_inj hdata hlen.symm
    obtain ⟨tail, rfl, hxs⟩ := ih htail
    exact ⟨tail, by rw [Message.ext heq, List.cons_append], hxs⟩

end Framing

end CalmTrading.Lib
