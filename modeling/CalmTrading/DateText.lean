import CalmTrading.Dates
import CalmTrading.Lib.Decimal

namespace CalmTrading.DateText

open Lib Lib.Gregorian Dates HistoricalData
open YearMonthDay (fromDays)

def padded (width n : Nat) : List Char :=
  List.replicate (width - (Nat.toDigits 10 n).length) '0' ++ Nat.toDigits 10 n

def yearText (y : Int) : List Char :=
  if y < 0 then '-' :: padded 4 (-y).toNat else padded 4 y.toNat

def paired (n : Nat) : List Char :=
  if n < 10 then '0' :: Nat.toDigits 10 n else Nat.toDigits 10 n

structure HhMmSs where
  h : Nat
  m : Nat
  s : Nat
  neg : Bool := false
  deriving DecidableEq

namespace HhMmSs

def ofSeconds (d : Int) : HhMmSs where
  h := d.natAbs / 3600
  m := d.natAbs / 60 - d.natAbs / 3600 * 60
  s := d.natAbs - d.natAbs / 3600 * 3600 - (d.natAbs / 60 - d.natAbs / 3600 * 60) * 60
  neg := d < 0

def toDuration (tod : HhMmSs) : Int :=
  (tod.s + tod.m * 60 + tod.h * 3600 : Nat) * (1 - 2 * if tod.neg then 1 else 0)

def inConventionalRange (tod : HhMmSs) : Bool :=
  !tod.neg && tod.h < 24 && tod.m < 60 && tod.s < 60

def text (tod : HhMmSs) : List Char :=
  (if tod.neg then ['-'] else []) ++ paired tod.h ++ ':' :: paired tod.m ++ ':' :: padded 2 tod.s

end HhMmSs

/-- The date and the time of day that `to_stream` finds for a `local_time`. -/
def fields (tp : Int) : YearMonthDay × HhMmSs :=
  let ld := tp.tdiv 86400
  if ld * 86400 ≤ tp then (fromDays ld, .ofSeconds (tp - ld * 86400))
  else (fromDays (ld - 1), .ofSeconds (86400 - (ld * 86400 - tp)))

/-- The formats `%Y%m%d-%T` and `%Y%m%d %T`, by the character between. -/
def compactText (sep : Char) (tp : Int) : List Char :=
  let (ymd, tod) := fields tp
  yearText ymd.year.toInt ++ paired ymd.month ++ padded 2 ymd.day ++ sep :: tod.text

def takeDigits : Nat → Nat → Nat → List Char → Nat × Nat × List Char
  | M + 1, x, count, c :: cs =>
    if c.isDigit then takeDigits M (10 * x + (c.toNat - '0'.toNat)) (count + 1) cs
    else (x, count, c :: cs)
  | _, x, count, cs => (x, count, cs)

def readUnsigned (M : Nat) (cs : List Char) : Option (Nat × List Char) :=
  let (x, count, rest) := takeDigits M 0 0 cs
  if count < 1 then none else some (x, rest)

def readSigned (M : Nat) : List Char → Option (Int × List Char)
  | [] => none
  | c :: cs =>
    if c = '-' ∨ c = '+' then
      (readUnsigned (M - 1) cs).map fun p => (if c = '-' then -(p.1 : Int) else p.1, p.2)
    else if c.isDigit then (readUnsigned M (c :: cs)).map fun p => ((p.1 : Int), p.2)
    else none

def readChar (a : Char) : List Char → Option (List Char)
  | [] => none
  | c :: cs => if c = a then some cs else none

/-- The parts of the number that `read_long_double` reads. -/
structure Reading where
  i : Nat := 0
  f : Nat := 0
  fcount : Nat := 0
  count : Nat := 0
  parsingFraction : Bool := false
  deriving DecidableEq

/-- Only the first point is one. -/
def takeDecimal : Nat → Reading → List Char → Reading × List Char
  | M + 1, r, c :: cs =>
    if c = '.' ∧ r.parsingFraction = false then
      takeDecimal M { r with parsingFraction := true, count := r.count + 1 } cs
    else if c.isDigit then
      let digit := c.toNat - '0'.toNat
      if r.parsingFraction then
        takeDecimal M
          { r with f := 10 * r.f + digit, fcount := r.fcount + 1, count := r.count + 1 } cs
      else takeDecimal M { r with i := 10 * r.i + digit, count := r.count + 1 } cs
    else (r, c :: cs)
  | _, r, cs => (r, cs)

def roundHalfEven (num den : Nat) : Nat :=
  if 2 * (num % den) < den ∨ 2 * (num % den) = den ∧ num / den % 2 = 0 then num / den
  else num / den + 1

def readSeconds (M : Nat) (cs : List Char) : Option (Nat × List Char) :=
  let (r, rest) := takeDecimal M {} cs
  if r.count < 1 then none
  else some (roundHalfEven (r.i * 10 ^ r.fcount + r.f) (10 ^ r.fcount), rest)

def isSpace (c : Char) : Bool := c = ' ' || (9 ≤ c.toNat && c.toNat ≤ 13)

/-- `from_stream` of a `local_time` with the format `%F %T`. What follows the
seconds is not read. -/
def fromStream (cs : List Char) : Option Int := do
  let (Y, cs) ← readSigned 4 cs
  let cs ← readChar '-' cs
  let (m, cs) ← readUnsigned 2 cs
  let cs ← readChar '-' cs
  let (d, cs) ← readUnsigned 2 cs
  let cs := cs.dropWhile isSpace
  let (H, cs) ← readUnsigned 2 cs
  let cs ← readChar ':' cs
  let (M, cs) ← readUnsigned 2 cs
  let cs ← readChar ':' cs
  let (s, _) ← readSeconds 2 cs
  let ymd : YearMonthDay := ⟨.ofInt Y, m, d⟩
  let tod : HhMmSs := { h := H, m := M, s := s }
  if ymd.ok && tod.inConventionalRange then some (ymd.toDays * 86400 + tod.toDuration) else none

/-- A time point that is not read stays at the epoch. -/
def dates : Calendar where
  parse s := (fromStream s.toList).getD 0
  formatUtc tp := .ofList (compactText '-' tp)
  formatLocal tp := .ofList (compactText ' ' tp)

theorem parse_ofList (cs : List Char) : dates.parse (.ofList cs) = (fromStream cs).getD 0 := by
  simp only [dates, String.toList_ofList]

def rightText (width : Nat) (y : Int) : List Char :=
  let cs := if y < 0 then '-' :: Nat.toDigits 10 (-y).toNat else Nat.toDigits 10 y.toNat
  List.replicate (width - cs.length) '0' ++ cs

/-- The format `%F %T`, in which the times of a request are given. -/
def isoText (tp : Int) : List Char :=
  let (ymd, tod) := fields tp
  rightText 4 ymd.year.toInt ++ '-' :: padded 2 ymd.month ++ '-' :: padded 2 ymd.day ++
    ' ' :: tod.text

example : dates.parse "2022-08-02 09:30:00 and more" = 1659432600 := by decide +kernel

example : dates.formatUtc 1659432600 = "20220802-09:30:00" := by decide +kernel

theorem isDigit_padded {width n : Nat} {c : Char} (h : c ∈ padded width n) : c.isDigit = true := by
  obtain h | h := List.mem_append.mp h
  · rw [List.eq_of_mem_replicate h]
    rfl
  · exact Nat.isDigit_of_mem_toDigits (by decide) (by decide) h

theorem value_padded (width n : Nat) : Nat.ofDigitChars 10 (padded width n) 0 = n := by
  rw [padded, Nat.ofDigitChars_append, Nat.ofDigitChars_replicate_zero, mul_zero,
    Nat.ofDigitChars_ten_toDigits]

theorem length_padded {width n : Nat} (h : n < 10 ^ width) (hwidth : 0 < width) :
    (padded width n).length = width := by
  have hle : (Nat.toDigits 10 n).length ≤ width :=
    (Nat.length_toDigits_le_iff (by decide) hwidth).mpr h
  rw [padded, List.length_append, List.length_replicate]
  omega

theorem paired_eq {n : Nat} (h : n < 100) : paired n = padded 2 n := by
  revert n
  decide

theorem takeDigits_append {M : Nat} {ds : List Char} (hlen : ds.length = M)
    (hds : ∀ c ∈ ds, c.isDigit = true) (x count : Nat) (rest : List Char) :
    takeDigits M x count (ds ++ rest) = (Nat.ofDigitChars 10 ds x, count + M, rest) := by
  induction ds generalizing M x count with
  | nil =>
    subst hlen
    rfl
  | cons c ds ih =>
    subst hlen
    have hc := hds c List.mem_cons_self
    have hrest := ih rfl (fun a ha => hds a (List.mem_cons_of_mem c ha))
      (10 * x + (c.toNat - '0'.toNat)) (count + 1)
    rw [List.length_cons, List.cons_append, takeDigits, if_pos hc, hrest, Nat.ofDigitChars_cons,
      Nat.add_right_comm, Nat.add_assoc]

theorem readUnsigned_padded {width n : Nat} (h : n < 10 ^ width) (hwidth : 0 < width)
    (rest : List Char) : readUnsigned width (padded width n ++ rest) = some (n, rest) := by
  have htake := takeDigits_append (length_padded h hwidth) (fun _ hc => isDigit_padded hc) 0 0 rest
  rw [readUnsigned, htake, value_padded]
  exact if_neg (by omega)

theorem padded_ne_nil (width n : Nat) : padded width n ≠ [] :=
  List.append_ne_nil_of_right_ne_nil _ Nat.toDigits_ne_nil

theorem readSigned_padded {width n : Nat} (h : n < 10 ^ width) (hwidth : 0 < width)
    (rest : List Char) : readSigned width (padded width n ++ rest) = some ((n : Int), rest) := by
  have hread := readUnsigned_padded h hwidth rest
  obtain ⟨c, cs, hcs⟩ := List.exists_cons_of_ne_nil (padded_ne_nil width n)
  have hc : c.isDigit = true := isDigit_padded (hcs ▸ List.mem_cons_self)
  have hsign : ¬ (c = '-' ∨ c = '+') := by
    rintro (rfl | rfl) <;> exact absurd hc (by decide)
  rw [hcs, List.cons_append] at hread ⊢
  rw [readSigned, if_neg hsign, if_pos hc, hread]
  rfl

theorem takeDecimal_append {M : Nat} {ds : List Char} (hlen : ds.length = M)
    (hds : ∀ c ∈ ds, c.isDigit = true) (i count : Nat) (rest : List Char) :
    takeDecimal M { i := i, count := count } (ds ++ rest) =
      ({ i := Nat.ofDigitChars 10 ds i, count := count + M }, rest) := by
  induction ds generalizing M i count with
  | nil =>
    subst hlen
    rfl
  | cons c ds ih =>
    subst hlen
    have hc := hds c List.mem_cons_self
    have hpoint : ¬ (c = '.' ∧ false = false) := by
      rintro ⟨rfl, _⟩
      exact absurd hc (by decide)
    have hrest := ih rfl (fun a ha => hds a (List.mem_cons_of_mem c ha))
      (10 * i + (c.toNat - '0'.toNat)) (count + 1)
    rw [List.length_cons, List.cons_append, takeDecimal, if_neg hpoint, if_pos hc]
    simp only [Bool.false_eq_true, if_false]
    rw [hrest, Nat.ofDigitChars_cons, Nat.add_right_comm, Nat.add_assoc]

theorem readSeconds_padded {width n : Nat} (h : n < 10 ^ width) (hwidth : 0 < width)
    (rest : List Char) : readSeconds width (padded width n ++ rest) = some (n, rest) := by
  have htake := takeDecimal_append (length_padded h hwidth) (fun _ hc => isDigit_padded hc) 0 0 rest
  rw [readSeconds, htake, value_padded]
  simp [roundHalfEven, Nat.mod_one, hwidth.ne']

/-- The split of a time point into date and time of day. -/
theorem fields_eq (tp : Int) :
    fields tp = (fromDays (tp / 86400), .ofSeconds (tp % 86400)) := by
  rw [fields]
  by_cases hneg : tp < 0
  · have htdiv : tp.tdiv 86400 = -(-tp / 86400) := by
      rw [← Int.tdiv_eq_ediv_of_nonneg (by omega), Int.neg_tdiv, neg_neg]
    rw [htdiv]
    split
    · have hday : -(-tp / 86400) = tp / 86400 := by omega
      have hrest : tp - tp / 86400 * 86400 = tp % 86400 := by omega
      rw [hday, hrest]
    · have hday : -(-tp / 86400) - 1 = tp / 86400 := by omega
      have hrest : 86400 - (-(-tp / 86400) * 86400 - tp) = tp % 86400 := by omega
      rw [hday, hrest]
  · have htdiv : tp.tdiv 86400 = tp / 86400 := Int.tdiv_eq_ediv_of_nonneg (by omega)
    have hrest : tp - tp / 86400 * 86400 = tp % 86400 := by omega
    rw [htdiv, if_pos (by omega), hrest]

theorem ofSeconds_spec {d : Int} (hlow : 0 ≤ d) (hhigh : d < 86400) :
    (HhMmSs.ofSeconds d).inConventionalRange = true ∧ (HhMmSs.ofSeconds d).toDuration = d := by
  have hneg : ¬ d < 0 := by omega
  constructor
  · simp only [HhMmSs.inConventionalRange, HhMmSs.ofSeconds, decide_eq_false hneg, Bool.not_false,
      Bool.true_and, Bool.and_eq_true, decide_eq_true_eq]
    omega
  · simp only [HhMmSs.toDuration, HhMmSs.ofSeconds, decide_eq_false hneg, Bool.false_eq_true,
      if_false]
    omega

def InRange (tp : Int) : Prop := minDays ≤ tp / 86400 ∧ tp / 86400 ≤ maxDays

theorem fields_spec {tp : Int} (h : InRange tp) :
    ((fields tp).1.ok = true ∧ (fields tp).1.toDays = tp / 86400) ∧
      (fields tp).2.inConventionalRange = true ∧ (fields tp).2.toDuration = tp % 86400 := by
  obtain ⟨hok, hday⟩ := fromDays_ok h.1 h.2
  rw [fields_eq]
  refine ⟨⟨hok, (toDays_eq hok).trans hday⟩, ?_⟩
  exact ofSeconds_spec (Int.emod_nonneg tp (by decide)) (Int.emod_lt_of_pos tp (by decide))

@[simp] theorem readChar_cons (c : Char) (cs : List Char) : readChar c (c :: cs) = some cs :=
  if_pos rfl

theorem dropWhile_space (width n : Nat) (rest : List Char) :
    (' ' :: (padded width n ++ rest)).dropWhile isSpace = padded width n ++ rest := by
  obtain ⟨c, cs, hcs⟩ := List.exists_cons_of_ne_nil (padded_ne_nil width n)
  have hc : c.isDigit = true := isDigit_padded (hcs ▸ List.mem_cons_self)
  have hspace : isSpace c = false := by
    obtain ⟨hlow, _⟩ := Decimal.digit_range hc
    have hblank : c ≠ ' ' := by
      rintro rfl
      exact absurd hc (by decide)
    simp [isSpace, hblank]
    omega
  rw [hcs, List.cons_append, List.dropWhile_cons_of_pos (by decide),
    List.dropWhile_cons_of_neg (by simp [hspace])]

/-- What is written with two digits. -/
structure TwoDigits (ymd : YearMonthDay) (tod : HhMmSs) : Prop where
  month : ymd.month < 10 ^ 2
  day : ymd.day < 10 ^ 2
  h : tod.h < 10 ^ 2
  m : tod.m < 10 ^ 2
  s : tod.s < 10 ^ 2
  neg : tod.neg = false

theorem TwoDigits.of_ok {ymd : YearMonthDay} {tod : HhMmSs} (hymd : ymd.ok = true)
    (htod : tod.inConventionalRange = true) : TwoDigits ymd tod := by
  have hlength := ((ymd.date hymd).day_range.2.trans (monthLength_le _ _))
  simp only [HhMmSs.inConventionalRange, Bool.and_eq_true, Bool.not_eq_true',
    decide_eq_true_eq] at htod
  obtain ⟨⟨⟨hneg, hh⟩, hm⟩, hs⟩ := htod
  exact
    { month := (ymd.date hymd).month_range.2.trans_lt (by decide)
      day := hlength.trans_lt (by decide)
      h := hh.trans (by decide)
      m := hm.trans (by decide)
      s := hs.trans (by decide)
      neg := hneg }

theorem TwoDigits.text {ymd : YearMonthDay} {tod : HhMmSs} (h : TwoDigits ymd tod) :
    paired ymd.month = padded 2 ymd.month ∧
      tod.text = padded 2 tod.h ++ ':' :: (padded 2 tod.m ++ ':' :: padded 2 tod.s) := by
  refine ⟨paired_eq h.month, ?_⟩
  simp [HhMmSs.text, h.neg, paired_eq h.h, paired_eq h.m]

theorem fromStream_written {ymd : YearMonthDay} {tod : HhMmSs} {y : Nat} (hymd : ymd.ok = true)
    (htod : tod.inConventionalRange = true) (hy : ymd.year.toInt = y) (hyear : y < 10 ^ 4)
    (rest : List Char) :
    fromStream (padded 4 y ++ '-' :: (padded 2 ymd.month ++ '-' :: (padded 2 ymd.day ++
      ' ' :: (padded 2 tod.h ++ ':' :: (padded 2 tod.m ++ ':' :: (padded 2 tod.s ++ rest)))))) =
      some (ymd.toDays * 86400 + tod.toDuration) := by
  have htwo := TwoDigits.of_ok hymd htod
  have hymd' : (⟨.ofInt y, ymd.month, ymd.day⟩ : YearMonthDay) = ymd := by
    rw [← hy, Int16.ofInt_toInt]
  have htod' : ({ h := tod.h, m := tod.m, s := tod.s } : HhMmSs) = tod := by
    rw [← htwo.neg]
  rw [fromStream, readSigned_padded hyear (by decide)]
  simp only [Option.bind_eq_bind, Option.bind_some, readChar_cons,
    readUnsigned_padded htwo.month (by decide), readUnsigned_padded htwo.day (by decide),
    dropWhile_space, readUnsigned_padded htwo.h (by decide), readUnsigned_padded htwo.m (by decide),
    readSeconds_padded htwo.s (by decide), hymd', htod', hymd, htod, Bool.and_self, if_true]

/-- So many digits give a number below the power of ten. -/
theorem takeDigits_lt (M x count : Nat) (cs : List Char) :
    (takeDigits M x count cs).1 < (x + 1) * 10 ^ M := by
  induction M generalizing x count cs with
  | zero => simp [takeDigits]
  | succ M ih =>
    have hmul : (x + 1) * 10 ^ (M + 1) = (10 * x + 10) * 10 ^ M := by
      rw [pow_succ', ← mul_assoc, add_one_mul, mul_comm x]
    have hstop : x < (10 * x + 10) * 10 ^ M :=
      calc x < 10 * x + 10 := by omega
        _ ≤ (10 * x + 10) * 10 ^ M := Nat.le_mul_of_pos_right _ (Nat.pow_pos (by decide))
    cases cs with
    | nil => simpa only [takeDigits, hmul] using hstop
    | cons c cs =>
      rw [takeDigits, hmul]
      split
      · next hc =>
        have hzero : '0'.toNat = 48 := rfl
        obtain ⟨hlow, hhigh⟩ := Decimal.digit_range hc
        refine (ih _ _ _).trans_le (Nat.mul_le_mul_right _ ?_)
        omega
      · exact hstop

theorem readUnsigned_lt {M x : Nat} {cs rest : List Char}
    (h : readUnsigned M cs = some (x, rest)) : x < 10 ^ M := by
  have hlt := takeDigits_lt M 0 0 cs
  simp only [readUnsigned] at h
  split at h
  · cases h
  · cases h
    simpa using hlt

/-- The sign takes the place of a digit. -/
theorem readSigned_bounds {y : Int} {cs rest : List Char}
    (h : readSigned 4 cs = some (y, rest)) : -999 ≤ y ∧ y ≤ 9999 := by
  cases cs with
  | nil => cases h
  | cons c cs =>
    rw [readSigned] at h
    split at h
    · obtain ⟨⟨x, tail⟩, hx, hy⟩ := Option.map_eq_some_iff.mp h
      have hlt := readUnsigned_lt hx
      obtain ⟨rfl, rfl⟩ := Prod.mk.inj hy
      dsimp only
      split <;> omega
    · split at h
      · obtain ⟨⟨x, tail⟩, hx, hy⟩ := Option.map_eq_some_iff.mp h
        have hlt := readUnsigned_lt hx
        obtain ⟨rfl, rfl⟩ := Prod.mk.inj hy
        dsimp only
        omega
      · cases h

/-- What a time point that is read can be. -/
theorem fromStream_some {cs : List Char} {tp : Int} (h : fromStream cs = some tp) :
    ∃ (ymd : YearMonthDay) (tod : HhMmSs), ymd.ok = true ∧ tod.inConventionalRange = true ∧
      (-999 ≤ ymd.year.toInt ∧ ymd.year.toInt ≤ 9999) ∧
      tp = ymd.toDays * 86400 + tod.toDuration := by
  simp only [fromStream, Option.bind_eq_bind, Option.bind_eq_some_iff, Prod.exists] at h
  obtain ⟨y, cs₁, hy, -, -, m, -, -, -, -, d, -, -, H, -, -, -, -, M, -, -, -, -, s, -, -, h⟩ := h
  split at h
  · next hok =>
    obtain ⟨hymd, htod⟩ := Bool.and_eq_true_iff.mp hok
    have hbounds := readSigned_bounds hy
    have hyear : (Int16.ofInt y).toInt = y := by
      apply Int16.toInt_ofInt_of_le <;> omega
    refine ⟨_, _, hymd, htod, ?_, (Option.some.inj h).symm⟩
    rwa [hyear]
  · cases h

def InYears (first last : Int16) (tp : Int) : Prop :=
  (YearMonthDay.mk first 1 1).toDays * 86400 ≤ tp ∧
    tp < (YearMonthDay.mk (last + 1) 1 1).toDays * 86400

theorem newYear_ok {y : Int16} (hy : yearOk y = true) : (YearMonthDay.mk y 1 1).ok = true := by
  simp [YearMonthDay.ok, hy, lastDay]

theorem newYear_toDays_le {ymd : YearMonthDay} {y : Int16} (hy : yearOk y = true)
    (hymd : ymd.ok = true) (h : y.toInt ≤ ymd.year.toInt) :
    (YearMonthDay.mk y 1 1).toDays ≤ ymd.toDays := by
  rw [toDays_eq (newYear_ok hy), toDays_eq hymd]
  exact Date.newYear_le rfl rfl h

theorem toDays_lt_newYear {ymd : YearMonthDay} {y : Int16} (hy : yearOk y = true)
    (hymd : ymd.ok = true) (h : ymd.year.toInt < y.toInt) :
    ymd.toDays < (YearMonthDay.mk y 1 1).toDays := by
  rw [toDays_eq (newYear_ok hy), toDays_eq hymd]
  exact Date.dayNumber_lt h

theorem yearOk_iff {y : Int16} : yearOk y = true ↔ -32768 < y.toInt := by
  have hle := y.le_toInt
  have hmin : y = .minValue ↔ y.toInt = -32768 := Int16.toInt_inj.symm
  rw [yearOk, decide_eq_true_iff, ne_eq, hmin]
  omega

/-- Such a time point has a date, of a year between them. -/
theorem InYears.year {first last : Int16} {tp : Int} (hfirst : yearOk first = true)
    (hlast : yearOk (last + 1) = true) (h : InYears first last tp) :
    InRange tp ∧ first.toInt ≤ (fields tp).1.year.toInt ∧
      (fields tp).1.year.toInt < (last + 1).toInt := by
  have hmin : minDays ≤ (YearMonthDay.mk first 1 1).toDays :=
    newYear_toDays_le rfl (newYear_ok hfirst) (yearOk_iff.mp hfirst)
  have hmax : (YearMonthDay.mk (last + 1) 1 1).toDays ≤ maxDays :=
    newYear_toDays_le hlast rfl (last + 1).toInt_le
  obtain ⟨hlow, hhigh⟩ := h
  have hrange : InRange tp := ⟨by omega, by omega⟩
  obtain ⟨⟨hok, hdays⟩, -⟩ := fields_spec hrange
  refine ⟨hrange, le_of_not_gt fun hlt => ?_, lt_of_not_ge fun hge => ?_⟩
  · have hbefore := toDays_lt_newYear hfirst hok hlt
    omega
  · have hafter := newYear_toDays_le hlast hok hge
    omega

/-- What is read is of the years that fit in four characters. -/
theorem parse_inYears (s : String) : InYears (-999) 9999 (dates.parse s) := by
  change InYears (-999) 9999 ((fromStream s.toList).getD 0)
  cases hread : fromStream s.toList with
  | none => exact ⟨by decide, by decide⟩
  | some tp =>
    obtain ⟨ymd, tod, hymd, htod, ⟨hlow, hhigh⟩, rfl⟩ := fromStream_some hread
    have hfirst := newYear_toDays_le (y := -999) rfl hymd hlow
    have hlast := toDays_lt_newYear (y := 10000) rfl hymd (Int.lt_add_one_of_le hhigh)
    have hday : 0 ≤ tod.toDuration ∧ tod.toDuration < 86400 := by
      simp only [HhMmSs.inConventionalRange, Bool.and_eq_true, Bool.not_eq_true',
        decide_eq_true_eq] at htod
      simp only [HhMmSs.toDuration, htod.1.1.1, Bool.false_eq_true, if_false]
      omega
    rw [Option.getD_some]
    have hten : (9999 : Int16) + 1 = 10000 := rfl
    refine ⟨by omega, ?_⟩
    rw [hten]
    omega

/-- A time of a year with four digits, written with `%F %T`, is read as itself,
whatever is written after it. -/
theorem parse_isoText {tp : Int} (h : InYears 0 9999 tp) (rest : List Char) :
    dates.parse (.ofList (isoText tp ++ rest)) = tp := by
  obtain ⟨hrange, hlow, hhigh⟩ := h.year rfl rfl
  obtain ⟨⟨hok, hdays⟩, htod, hduration⟩ := fields_spec hrange
  obtain ⟨y, hy⟩ := Int.eq_ofNat_of_zero_le hlow
  have hfour : y < 10 ^ 4 := by
    have hten : ((9999 : Int16) + 1).toInt = 10000 := rfl
    omega
  have hyear : rightText 4 (fields tp).1.year.toInt = padded 4 y := by
    rw [hy, rightText, if_neg (by omega)]
    rfl
  have hread := fromStream_written hok htod hy hfour rest
  have htext : isoText tp ++ rest = padded 4 y ++ '-' :: (padded 2 (fields tp).1.month ++ '-' ::
      (padded 2 (fields tp).1.day ++ ' ' :: (padded 2 (fields tp).2.h ++ ':' ::
        (padded 2 (fields tp).2.m ++ ':' :: (padded 2 (fields tp).2.s ++ rest))))) := by
    simp [isoText, hyear, (TwoDigits.of_ok hok htod).text]
  rw [parse_ofList, htext, hread, Option.getD_some, hdays, hduration]
  omega

theorem parse_isoText_august :
    dates.parse (.ofList (isoText 1659432600 ++ " New York".toList)) = 1659432600 :=
  parse_isoText ⟨by decide, by decide⟩ _

end CalmTrading.DateText
