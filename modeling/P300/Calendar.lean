import Mathlib.Data.Int.Order.Basic
import Mathlib.Data.List.Basic
import P300.Basic

/-!
# Dates and their texts

The weekday and the day of the month of a date, and the texts of a date in the ISO form and in a
file name. A date is a number of days since the epoch, as in `utcDate`; `civil` gives its year,
month and day, and `ofCivil` takes them back.
-/

namespace P300

/-- `date.weekday()`: Monday is 0. -/
def weekday (date : Int) : Int := (date + 3) % 7

/-- `date.day` -/
def dayOfMonth (date : Int) : Int := (civil date).2.2

/-- The date of a year, month and day. -/
def ofCivil (year month day : Int) : Int :=
  let y := if month ≤ 2 then year - 1 else year
  let era := y / 400
  let yoe := y - era * 400
  let mp := if month > 2 then month - 3 else month + 9
  era * 146_097 + (yoe * 365 + yoe / 4 - yoe / 100 + ((153 * mp + 2) / 5 + day - 1)) - 719_468

/-- The day of the year, counted from March, of a day of a 400-year era. -/
theorem doy_bounds {doe yoe : Int} (h0 : 0 ≤ doe) (h1 : doe < 146_097)
    (hyoe : yoe = (doe - doe / 1460 + doe / 36_524 - doe / 146_096) / 365) :
    0 ≤ doe - (365 * yoe + yoe / 4 - yoe / 100) ∧
      doe - (365 * yoe + yoe / 4 - yoe / 100) < 366 := by
  have hcentury : doe / 36_524 ≤ doe / 1460 := by omega
  have hleap : yoe / 4 ≤ doe / 1460 := by omega
  have hcenturies : doe / 36_524 = 0 ∨ doe / 36_524 = 1 ∨ doe / 36_524 = 2 ∨ doe / 36_524 = 3 ∨
      doe / 36_524 = 4 := by omega
  have hyoe100 : yoe / 100 = doe / 36_524 - doe / 146_096 := by
    rcases hcenturies with hc | hc | hc | hc | hc <;> rw [hc] at hyoe ⊢ <;> omega
  have hleap' : doe / 1460 ≤ yoe / 4 + 1 := by omega
  constructor <;> omega

/-- A date by its place in its 400-year era. -/
theorem civil_eq (date : Int) : ∃ era yoe mp day : Int, 0 ≤ yoe ∧ yoe < 400 ∧ 0 ≤ mp ∧ mp < 12 ∧
    1 ≤ day ∧ day ≤ 31 ∧
    date + 719_468 = era * 146_097 +
      (yoe * 365 + yoe / 4 - yoe / 100 + ((153 * mp + 2) / 5 + day - 1)) ∧
    civil date = (yoe + era * 400 + (if (if mp < 10 then mp + 3 else mp - 9) ≤ 2 then 1 else 0),
      if mp < 10 then mp + 3 else mp - 9, day) := by
  let doe := (date + 719_468) - (date + 719_468) / 146_097 * 146_097
  let yoe := (doe - doe / 1460 + doe / 36_524 - doe / 146_096) / 365
  let doy := doe - (365 * yoe + yoe / 4 - yoe / 100)
  have h0 : 0 ≤ doe := by
    change 0 ≤ (date + 719_468) - (date + 719_468) / 146_097 * 146_097
    omega
  have h1 : doe < 146_097 := by
    change (date + 719_468) - (date + 719_468) / 146_097 * 146_097 < 146_097
    omega
  obtain ⟨hdoy0, hdoy1⟩ : 0 ≤ doy ∧ doy < 366 := doy_bounds h0 h1 rfl
  have hyoe : 0 ≤ yoe ∧ yoe < 400 := by
    have hdef : yoe = (doe - doe / 1460 + doe / 36_524 - doe / 146_096) / 365 := rfl
    clear_value yoe doe
    omega
  refine ⟨(date + 719_468) / 146_097, yoe, (5 * doy + 2) / 153,
    doy - (153 * ((5 * doy + 2) / 153) + 2) / 5 + 1, hyoe.1, hyoe.2, ?_, ?_, ?_, ?_, ?_, rfl⟩
  · clear_value doy
    omega
  · clear_value doy
    omega
  · clear_value doy
    omega
  · clear_value doy
    omega
  · have hdoy : doy = doe - (365 * yoe + yoe / 4 - yoe / 100) := rfl
    have hdoe : doe = (date + 719_468) - (date + 719_468) / 146_097 * 146_097 := rfl
    clear_value doy yoe doe
    omega

theorem ofCivil_civil (date : Int) :
    ofCivil (civil date).1 (civil date).2.1 (civil date).2.2 = date := by
  obtain ⟨era, yoe, mp, day, hyoe0, hyoe1, hmp0, hmp1, -, -, hdate, hcivil⟩ := civil_eq date
  rw [hcivil, ofCivil]
  by_cases hmp : mp < 10
  · have hera : (yoe + era * 400 + 0) / 400 = era := by omega
    rw [if_pos hmp, if_neg (by omega : ¬ mp + 3 ≤ 2)]
    dsimp only
    rw [if_neg (by omega), if_pos (by omega), hera]
    omega
  · have hera : (yoe + era * 400 + 1 - 1) / 400 = era := by omega
    rw [if_neg hmp, if_pos (by omega : mp - 9 ≤ 2)]
    dsimp only
    rw [if_pos (by omega), if_neg (by omega), hera]
    omega

theorem civil_bounds (date : Int) : 1 ≤ (civil date).2.1 ∧ (civil date).2.1 ≤ 12 ∧
    1 ≤ (civil date).2.2 ∧ (civil date).2.2 ≤ 31 := by
  obtain ⟨era, yoe, mp, day, -, -, hmp0, hmp1, hday1, hday31, -, hcivil⟩ := civil_eq date
  rw [hcivil]
  dsimp only
  refine ⟨?_, ?_, hday1, hday31⟩ <;> split <;> omega

/-- The date at a position of a list of dates. -/
def dateAt (dates : List Int) (i : ℕ) : Int := dates.getD i 0

/-! ## Texts -/

/-- A date that `datetime` can hold. -/
def InRange (date : Int) : Prop := 1 ≤ (civil date).1 ∧ (civil date).1 ≤ 9999

instance (date : Int) : Decidable (InRange date) := inferInstanceAs (Decidable (_ ∧ _))

/-- From 0001-01-01 to 9999-12-31. -/
theorem inRange_iff {date : Int} : InRange date ↔ -719_162 ≤ date ∧ date ≤ 2_932_896 := by
  obtain ⟨era, yoe, mp, day, hyoe0, hyoe1, hmp0, hmp1, hday1, hday31, hdate, hcivil⟩ :=
    civil_eq date
  rw [InRange, hcivil]
  dsimp only
  by_cases hmp : mp < 10
  · rw [if_pos hmp, if_neg (by omega)]
    omega
  · rw [if_neg hmp, if_pos (by omega)]
    omega

/-- `date(year, month, day)`, if there is such a day. -/
def date? (year month day : Int) : Option Int :=
  let date := ofCivil year month day
  if InRange date ∧ civil date = (year, month, day) then some date else none

theorem date?_civil {date : Int} (h : InRange date) :
    date? (civil date).1 (civil date).2.1 (civil date).2.2 = some date := by
  rw [date?, ofCivil_civil]
  exact if_pos ⟨h, rfl⟩

/-- Year, month and day, padded with zeros. -/
def datePads (date : Int) : List Char × List Char × List Char :=
  let (year, month, day) := civil date
  (zeroPad 4 year.toNat, zeroPad 2 month.toNat, zeroPad 2 day.toNat)

/-- A number of `width` ASCII digits at the front of a text, with the rest. -/
def readDigits (width : ℕ) (cs : List Char) : Option (ℕ × List Char) :=
  if (cs.take width).length = width ∧ (cs.take width).all Char.isDigit then
    some (Nat.ofDigitChars 10 (cs.take width) 0, cs.drop width)
  else none

theorem readDigits_zeroPad {width n : ℕ} (hwidth : 0 < width) (h : n < 10 ^ width)
    (rest : List Char) :
    readDigits width (zeroPad width n ++ rest) = some (n, rest) := by
  have hlen := length_zeroPad hwidth h
  rw [readDigits, List.take_left' hlen, List.drop_left' hlen, ofDigitChars_zeroPad, if_pos]
  exact ⟨hlen, List.all_eq_true.mpr fun c hc => isDigit_of_mem_zeroPad hc⟩

theorem isPrefixOf?_append (cs rest : List Char) : cs.isPrefixOf? (cs ++ rest) = some rest := by
  induction cs with
  | nil => rfl
  | cons c cs ih =>
    change (if (c == c) = true then cs.isPrefixOf? (cs ++ rest) else none) = some rest
    rw [if_pos (beq_self_eq_true c), ih]

/-- `date.isoformat()` -/
def dateIso (date : Int) : String :=
  let (year, month, day) := datePads date
  String.ofList (year ++ '-' :: month ++ '-' :: day)

example : dateIso 20_668 = "2026-08-03" := by decide +kernel

/-- `datetime.fromisoformat(text).date()` of a text in the form of `date.isoformat()`. -/
def fromisoformat (text : String) : Option Int := do
  let (year, cs) ← readDigits 4 text.toList
  let cs ← ['-'].isPrefixOf? cs
  let (month, cs) ← readDigits 2 cs
  let cs ← ['-'].isPrefixOf? cs
  let (day, cs) ← readDigits 2 cs
  if cs = [] then date? year month day else none

section Texts

variable {date : Int} (h : InRange date)

include h

theorem toNat_year : (((civil date).1.toNat : ℕ) : Int) = (civil date).1 ∧
    (civil date).1.toNat < 10 ^ 4 := by
  obtain ⟨h1, h2⟩ := h
  omega

omit h in
theorem toNat_month (date : Int) : (((civil date).2.1.toNat : ℕ) : Int) = (civil date).2.1 ∧
    1 ≤ (civil date).2.1.toNat ∧ (civil date).2.1.toNat ≤ 12 := by
  have hbounds := civil_bounds date
  omega

omit h in
theorem toNat_day (date : Int) : (((civil date).2.2.toNat : ℕ) : Int) = (civil date).2.2 ∧
    1 ≤ (civil date).2.2.toNat ∧ (civil date).2.2.toNat ≤ 31 := by
  have hbounds := civil_bounds date
  omega

@[simp] theorem fromisoformat_dateIso : fromisoformat (dateIso date) = some date := by
  obtain ⟨hy, hy4⟩ := toNat_year h
  obtain ⟨hm, hm1, hm12⟩ := toNat_month date
  obtain ⟨hd, hd1, hd31⟩ := toNat_day date
  have hmonth : (civil date).2.1.toNat < 10 ^ 2 := by omega
  have hday : readDigits 2 (zeroPad 2 (civil date).2.2.toNat ++ []) =
      some ((civil date).2.2.toNat, []) :=
    readDigits_zeroPad (by decide) (by omega) []
  rw [List.append_nil] at hday
  have hdash : ∀ cs, ['-'].isPrefixOf? ('-' :: cs) = some cs := isPrefixOf?_append ['-']
  simp only [fromisoformat, dateIso, datePads, String.toList_ofList, List.append_assoc,
    List.cons_append, readDigits_zeroPad (by decide) hy4, readDigits_zeroPad (by decide) hmonth,
    hday, hdash, hy, hm, hd, Option.bind_eq_bind, Option.bind_some]
  exact date?_civil h

theorem dateIso_inj {date' : Int} (h' : InRange date') (heq : dateIso date = dateIso date') :
    date = date' := by
  have hparse := fromisoformat_dateIso h'
  rw [← heq, fromisoformat_dateIso h] at hparse
  exact Option.some.inj hparse

end Texts

theorem zeroPad_append_inj {width n n' : ℕ} (hwidth : 0 < width) (h : n < 10 ^ width)
    (h' : n' < 10 ^ width) {rest rest' : List Char}
    (heq : zeroPad width n ++ rest = zeroPad width n' ++ rest') :
    n = n' ∧ rest = rest' := by
  have hread := readDigits_zeroPad hwidth h rest
  rw [heq, readDigits_zeroPad hwidth h'] at hread
  obtain ⟨hn, hrest⟩ := Prod.mk.inj (Option.some.inj hread)
  exact ⟨hn.symm, hrest.symm⟩

/-- Instants of one text are the same. -/
theorem isoformat_inj {t t' : Time} (h : InRange (utcDate t)) (h' : InRange (utcDate t'))
    (heq : isoformat t = isoformat t') : t = t' := by
  obtain ⟨hy, hy4⟩ := toNat_year h
  obtain ⟨hy', hy4'⟩ := toNat_year h'
  obtain ⟨hm, hm1, hm12⟩ := toNat_month (utcDate t)
  obtain ⟨hm', hm1', hm12'⟩ := toNat_month (utcDate t')
  obtain ⟨hd, hd1, hd31⟩ := toNat_day (utcDate t)
  obtain ⟨hd', hd1', hd31'⟩ := toNat_day (utcDate t')
  have hmonth2 : (civil (utcDate t)).2.1.toNat < 10 ^ 2 := by omega
  have hmonth2' : (civil (utcDate t')).2.1.toNat < 10 ^ 2 := by omega
  have hday2 : (civil (utcDate t)).2.2.toNat < 10 ^ 2 := by omega
  have hday2' : (civil (utcDate t')).2.2.toNat < 10 ^ 2 := by omega
  have heq := congrArg String.toList heq
  simp only [isoformat, String.toList_ofList, List.append_assoc, List.cons_append] at heq
  have hus : 0 ≤ t % 86_400_000_000 ∧ t % 86_400_000_000 < 86_400_000_000 :=
    ⟨Int.emod_nonneg t (by decide), Int.emod_lt_of_pos t (by decide)⟩
  have hus' : 0 ≤ t' % 86_400_000_000 ∧ t' % 86_400_000_000 < 86_400_000_000 :=
    ⟨Int.emod_nonneg t' (by decide), Int.emod_lt_of_pos t' (by decide)⟩
  obtain ⟨us, hust⟩ := Int.eq_ofNat_of_zero_le hus.1
  obtain ⟨us', hust'⟩ := Int.eq_ofNat_of_zero_le hus'.1
  rw [hust, hust', Int.toNat_natCast, Int.toNat_natCast] at heq
  have hlt : us < 86_400_000_000 := by omega
  have hlt' : us' < 86_400_000_000 := by omega
  obtain ⟨hyear, heq⟩ := zeroPad_append_inj (by decide) hy4 hy4' heq
  obtain ⟨hmonth, heq⟩ := zeroPad_append_inj (by decide) hmonth2 hmonth2' (List.cons.inj heq).2
  obtain ⟨hday, heq⟩ := zeroPad_append_inj (by decide) hday2 hday2' (List.cons.inj heq).2
  obtain ⟨hhour, heq⟩ := zeroPad_append_inj (by decide) (by omega) (by omega) (List.cons.inj heq).2
  obtain ⟨hminute, heq⟩ :=
    zeroPad_append_inj (by decide) (by omega) (by omega) (List.cons.inj heq).2
  obtain ⟨hsecond, heq⟩ :=
    zeroPad_append_inj (by decide) (by omega) (by omega) (List.cons.inj heq).2
  have hfrac : us % 1_000_000 = us' % 1_000_000 := by
    by_cases h0 : us % 1_000_000 = 0
    · by_cases h0' : us' % 1_000_000 = 0
      · rw [h0, h0']
      · rw [if_pos h0, if_neg h0'] at heq
        cases heq
    · by_cases h0' : us' % 1_000_000 = 0
      · rw [if_neg h0, if_pos h0'] at heq
        cases heq
      · rw [if_neg h0, if_neg h0'] at heq
        exact (zeroPad_append_inj (by decide) (by omega) (by omega) (List.cons.inj heq).2).1
  have hcivil : civil (utcDate t) = civil (utcDate t') :=
    Prod.ext (by rw [← hy, ← hy', hyear])
      (Prod.ext (by rw [← hm, ← hm', hmonth]) (by rw [← hd, ← hd', hday]))
  have hdate := ofCivil_civil (utcDate t)
  rw [hcivil, ofCivil_civil] at hdate
  rw [utcDate, utcDate] at hdate
  unfold Time at *
  omega

/-! ## Decimal digits -/

/-- The zeros of the decimal digits of Unicode; the digits from one to nine follow each. -/
def decimalZeros : List ℕ :=
  [0x30, 0x660, 0x6F0, 0x7C0, 0x966, 0x9E6, 0xA66, 0xAE6, 0xB66, 0xBE6, 0xC66, 0xCE6, 0xD66, 0xDE6,
    0xE50, 0xED0, 0xF20, 0x1040, 0x1090, 0x17E0, 0x1810, 0x1946, 0x19D0, 0x1A80, 0x1A90, 0x1B50,
    0x1BB0, 0x1C40, 0x1C50, 0xA620, 0xA8D0, 0xA900, 0xA9D0, 0xA9F0, 0xAA50, 0xABF0, 0xFF10, 0x104A0,
    0x10D30, 0x11066, 0x110F0, 0x11136, 0x111D0, 0x112F0, 0x11450, 0x114D0, 0x11650, 0x116C0,
    0x11730, 0x118E0, 0x11950, 0x11C50, 0x11D50, 0x11DA0, 0x11F50, 0x16A60, 0x16AC0, 0x16B50,
    0x1D7CE, 0x1D7D8, 0x1D7E2, 0x1D7EC, 0x1D7F6, 0x1E140, 0x1E2F0, 0x1E4F0, 0x1E950, 0x1FBF0]

/-- The value of a character that `\d` matches. -/
def decimal (c : Char) : Option ℕ :=
  (decimalZeros.find? fun z => z ≤ c.toNat ∧ c.toNat < z + 10).map fun z => c.toNat - z

/-- `int(digits)` -/
def intOfDigits (digits : List Char) : ℕ :=
  digits.foldl (fun n c => 10 * n + (decimal c).getD 0) 0

theorem decimal_of_isDigit {c : Char} (h : c.isDigit) : decimal c = some (c.toNat - '0'.toNat) := by
  rw [Char.isDigit, Bool.and_eq_true, decide_eq_true_iff, decide_eq_true_iff] at h
  have hascii : decimalZeros.find? (fun z => z ≤ c.toNat ∧ c.toNat < z + 10) = some 0x30 :=
    List.find?_cons_of_pos (decide_eq_true ⟨h.1, Nat.lt_succ_of_le h.2⟩)
  rw [decimal, hascii]
  rfl

theorem intOfDigits_eq {digits : List Char} (h : ∀ c ∈ digits, c.isDigit) :
    intOfDigits digits = Nat.ofDigitChars 10 digits 0 := by
  rw [intOfDigits, Nat.ofDigitChars_eq_foldl]
  refine List.foldl_ext _ _ _ fun n c hc => ?_
  rw [decimal_of_isDigit (h c hc), Option.getD_some]

/-- A number of `width` decimal digits at the front of a text, with the rest. -/
def readDecimals (width : ℕ) (cs : List Char) : Option (ℕ × List Char) :=
  if (cs.take width).length = width ∧ (cs.take width).all fun c => (decimal c).isSome then
    some (intOfDigits (cs.take width), cs.drop width)
  else none

/-- A number that is read as one of ASCII digits. -/
theorem readDecimals_of_readDigits {width : ℕ} {cs : List Char} {r : ℕ × List Char}
    (h : readDigits width cs = some r) : readDecimals width cs = some r := by
  rw [readDigits] at h
  split at h
  · next hdigits =>
    have hascii : ∀ c ∈ cs.take width, c.isDigit := List.all_eq_true.mp hdigits.2
    cases h
    rw [readDecimals, intOfDigits_eq hascii, if_pos]
    refine ⟨hdigits.1, List.all_eq_true.mpr fun c hc => ?_⟩
    rw [decimal_of_isDigit (hascii c hc)]
    rfl
  · cases h

theorem readDecimals_zeroPad {width n : ℕ} (hwidth : 0 < width) (h : n < 10 ^ width)
    (rest : List Char) : readDecimals width (zeroPad width n ++ rest) = some (n, rest) :=
  readDecimals_of_readDigits (readDigits_zeroPad hwidth h rest)

end P300
