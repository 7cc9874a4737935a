import KyrosWebServer.IntegerText
import KyrosWebServer.Lexicographic

/-!
# Timestamps

`Timestamp` from base/Timestamp and its two texts. The calendar of `gmtime_r`
is the Gregorian one without leap seconds: a day is located among the years from
1970 on and then among the months of its year. Up to the year 9999 the formatted
texts have one width and sort as the times do. `now` and `timeDifference` are
left out.
-/

namespace KyrosWebServer.Base

open Numeral Lexicographic

/-- A point of time. -/
structure Timestamp where
  /-- Microseconds since 1970 began. -/
  microSecondsSinceEpoch_ : UInt64

/-- A year with a day more. -/
def isLeap (year : ℕ) : Bool := year % 4 == 0 && (year % 100 != 0 || year % 400 == 0)

/-- The years by their days. -/
def years : Blocks where
  len year := if isLeap year then 366 else 365
  pos year := by split <;> exact Nat.succ_pos _

/-- The months of a year by their days, January first. -/
def months (leap : Bool) : Blocks where
  len mon := if mon = 1 then (if leap then 29 else 28) else if mon ∈ [3, 5, 8, 10] then 30 else 31
  pos mon := by
    split
    · split <;> exact Nat.succ_pos _
    · split <;> exact Nat.succ_pos _

/-- The fields of `struct tm` that are printed. -/
structure tm where
  /-- Years since 1900. -/
  tm_year : ℕ
  /-- Months since January. -/
  tm_mon : ℕ
  /-- The day of the month, from 1 on. -/
  tm_mday : ℕ
  /-- Hours since midnight. -/
  tm_hour : ℕ
  /-- Minutes after the hour. -/
  tm_min : ℕ
  /-- Seconds after the minute. -/
  tm_sec : ℕ
  deriving DecidableEq, Repr

/-- `gmtime_r` for times from 1970 on. -/
def gmtime_r (seconds : ℕ) : tm :=
  let day := years.locate 1970 (seconds / 86400)
  let date := (months (isLeap day.1)).locate 0 day.2
  let clock := seconds % 86400
  { tm_year := day.1 - 1900
    tm_mon := date.1
    tm_mday := date.2 + 1
    tm_hour := clock / 3600
    tm_min := clock % 3600 / 60
    tm_sec := clock % 3600 % 60 }

/-- `%0wd` for a number that is not negative. -/
def zeroFilled (w n : ℕ) : List UInt8 := filled decimal (Char.toUInt8 '0') w n

/-- `%wd`. -/
def blankFilled (w n : ℕ) : List UInt8 := filled decimal (Char.toUInt8 ' ') w n

/-- What `snprintf` leaves in an array of `size` bytes, up to the NUL. -/
def snprintf (size : ℕ) (text : List UInt8) : List UInt8 := text.take (size - 1)

/-- The format `"%4d%02d%02d %02d:%02d:%02d"`. -/
def tm.format (tm_time : tm) : List UInt8 :=
  blankFilled 4 (tm_time.tm_year + 1900) ++ zeroFilled 2 (tm_time.tm_mon + 1) ++
    zeroFilled 2 tm_time.tm_mday ++ chars [' '] ++ zeroFilled 2 tm_time.tm_hour ++ chars [':'] ++
    zeroFilled 2 tm_time.tm_min ++ chars [':'] ++ zeroFilled 2 tm_time.tm_sec

namespace Timestamp

/-- The constructor. -/
def create (microSecondsSinceEpochArg : Int64) : Timestamp := ⟨microSecondsSinceEpochArg.toUInt64⟩

/-- `kMicroSecondsPerSecond`. -/
def kMicroSecondsPerSecond : UInt64 := 1000000

/-- The whole seconds. -/
def seconds (t : Timestamp) : ℕ := (t.microSecondsSinceEpoch_ / kMicroSecondsPerSecond).toNat

/-- The microseconds behind them. -/
def microseconds (t : Timestamp) : ℕ := (t.microSecondsSinceEpoch_ % kMicroSecondsPerSecond).toNat

/-- `toString`. -/
def toString (t : Timestamp) : List UInt8 :=
  snprintf 32 (decimal.numeral t.seconds ++ chars ['.'] ++ zeroFilled 6 t.microseconds)

/-- `toFormattedString`. -/
def toFormattedString (t : Timestamp) (showMicroseconds : Bool) : List UInt8 :=
  let tm_time := gmtime_r t.seconds
  if showMicroseconds then snprintf 64 (tm_time.format ++ chars ['.'] ++ zeroFilled 6 t.microseconds)
  else snprintf 64 tm_time.format

/-- The year that is printed. -/
def year (t : Timestamp) : ℕ := (gmtime_r t.seconds).tm_year + 1900

theorem seconds_eq (t : Timestamp) : t.seconds = t.microSecondsSinceEpoch_.toNat / 1000000 := by
  rw [seconds, UInt64.toNat_div]
  rfl

theorem microseconds_eq (t : Timestamp) :
    t.microseconds = t.microSecondsSinceEpoch_.toNat % 1000000 := by
  rw [microseconds, UInt64.toNat_mod]
  rfl

theorem microseconds_lt (t : Timestamp) : t.microseconds < 1000000 := by
  rw [microseconds_eq]
  exact Nat.mod_lt _ (by decide)

theorem seconds_lt (t : Timestamp) : t.seconds < 18446744073710 := by
  have hlt := t.microSecondsSinceEpoch_.toNat_lt
  rw [seconds_eq]
  omega

end Timestamp

theorem months_len_le (leap : Bool) (mon : ℕ) : (months leap).len mon ≤ 31 := by
  change (if mon = 1 then (if leap then 29 else 28) else if mon ∈ [3, 5, 8, 10] then 30 else 31) ≤ 31
  split
  · split <;> decide
  · split <;> decide

/-- Twelve months make the year. -/
theorem months_sum (year : ℕ) :
    ((List.range 12).map fun i => (months (isLeap year)).len (0 + i)).sum = years.len year := by
  change _ = if isLeap year then 366 else 365
  cases isLeap year <;> decide

/-- The month and the day of the month, in a year that begins with day 0. -/
def dateText (leap : Bool) (yday : ℕ) : List UInt8 :=
  let date := (months leap).locate 0 yday
  zeroFilled 2 (date.1 + 1) ++ zeroFilled 2 (date.2 + 1)

/-- The date of a day since 1970. -/
def dayText (day : ℕ) : List UInt8 :=
  let date := years.locate 1970 day
  blankFilled 4 date.1 ++ dateText (isLeap date.1) date.2

/-- The time of a second since midnight. -/
def clockText (second : ℕ) : List UInt8 :=
  zeroFilled 2 (second / 3600) ++ (chars [':'] ++ (zeroFilled 2 (second % 3600 / 60) ++
    (chars [':'] ++ zeroFilled 2 (second % 3600 % 60))))

/-- The format of a second since 1970. -/
def secondText (second : ℕ) : List UInt8 :=
  dayText (second / 86400) ++ (chars [' '] ++ clockText (second % 86400))

theorem format_eq (seconds : ℕ) : (gmtime_r seconds).format = secondText seconds := by
  have hyear : (gmtime_r seconds).tm_year + 1900 = (years.locate 1970 (seconds / 86400)).1 := by
    have hle := years.le_locate 1970 (seconds / 86400)
    change (years.locate 1970 (seconds / 86400)).1 - 1900 + 1900 = _
    omega
  rw [tm.format, hyear]
  simp only [secondText, dayText, dateText, clockText, List.append_assoc]
  rfl

theorem zeroFilled_rising (w : ℕ) : Rising (· < 10 ^ (w + 1)) (w + 1) (zeroFilled (w + 1)) :=
  rising_filled decimal (by decide) w

/-- A year of four digits is not filled up. -/
theorem blankFilled_rising : Rising (fun y => 1000 ≤ y ∧ y < 10000) 4 (blankFilled 4) := by
  have hfour : ∀ fill y, 1000 ≤ y → y < 10000 → filled decimal fill 4 y = decimal.numeral y := by
    intro fill y hlow hhigh
    have hlen : 4 ≤ (decimal.numeral y).length := by
      by_contra hless
      have hlt : y < 10 ^ (decimal.numeral y).length := lt_pow_length_numeral decimal y
      have hle : 10 ^ (decimal.numeral y).length ≤ 10 ^ 3 :=
        Nat.pow_le_pow_right (by decide) (by omega)
      omega
    rw [filled, Nat.sub_eq_zero_of_le hlen]
    rfl
  have hzero := (zeroFilled_rising 3).subset fun y (hy : 1000 ≤ y ∧ y < 10000) => hy.2
  refine ⟨fun y hy => ?_, fun y z hy hz hlt => ?_⟩
  · have hwidth := hzero.width y hy
    rw [zeroFilled, hfour _ y hy.1 hy.2] at hwidth
    rw [blankFilled, hfour _ y hy.1 hy.2]
    exact hwidth
  · have hless := hzero.lt y z hy hz hlt
    rw [zeroFilled, zeroFilled, hfour _ y hy.1 hy.2, hfour _ z hz.1 hz.2] at hless
    rw [blankFilled, blankFilled, hfour _ y hy.1 hy.2, hfour _ z hz.1 hz.2]
    exact hless

/-- Days of one year. -/
theorem dateText_rising (year : ℕ) : Rising (· < years.len year) 4 (dateText (isLeap year)) := by
  have htwo := (zeroFilled_rising 1).offset 1
  refine (htwo.append ((months (isLeap year)).splits 0) fun _ _ => htwo).subset fun yday hyday => ?_
  rw [← months_sum] at hyday
  have hmon := (months (isLeap year)).locate_lt_add hyday
  have hday := (months (isLeap year)).locate_lt 0 yday
  have hlen := months_len_le (isLeap year) ((months (isLeap year)).locate 0 yday).1
  constructor
  · change _ + 1 < 100
    omega
  · change _ + 1 < 100
    omega

/-- Days up to the year 9999. -/
theorem dayText_rising : Rising (fun day => (years.locate 1970 day).1 < 10000) 8 dayText := by
  refine (blankFilled_rising.append (years.splits 1970) fun year _ => dateText_rising year).subset ?_
  intro day hday
  have hlow := years.le_locate 1970 day
  exact ⟨⟨by omega, hday⟩, years.locate_lt 1970 day⟩

/-- Seconds of one day. -/
theorem clockText_rising : Rising (· < 86400) 8 clockText := by
  have htwo := zeroFilled_rising 1
  have hsecond := htwo.append_left (chars [':'])
  have hminute := (htwo.append (Splits.divMod 60) fun _ _ => hsecond).append_left (chars [':'])
  refine (htwo.append (Splits.divMod 3600) fun _ _ => hminute).subset fun second hlt => ?_
  have hmod := Nat.mod_lt second (show 0 < 3600 by decide)
  have hmod' := Nat.mod_lt (second % 3600) (show 0 < 60 by decide)
  refine ⟨?_, ?_, ?_⟩
  · change second / 3600 < 100
    omega
  · change second % 3600 / 60 < 100
    omega
  · change second % 3600 % 60 < 100
    omega

/-- Seconds up to the year 9999. -/
theorem secondText_rising :
    Rising (fun second => (gmtime_r second).tm_year + 1900 < 10000) 17 secondText := by
  have hclock := clockText_rising.append_left (chars [' '])
  refine (dayText_rising.append (Splits.divMod 86400) fun _ _ => hclock).subset fun second hlt => ?_
  refine ⟨?_, Nat.mod_lt second (by decide)⟩
  change (years.locate 1970 (second / 86400)).1 - 1900 + 1900 < 10000 at hlt
  omega

/-- The format with the microseconds. -/
def microText (micro : ℕ) : List UInt8 :=
  secondText (micro / 1000000) ++ (chars ['.'] ++ zeroFilled 6 (micro % 1000000))

theorem microText_rising :
    Rising (fun micro => (gmtime_r (micro / 1000000)).tm_year + 1900 < 10000) 24 microText := by
  have hmicro := (zeroFilled_rising 5).append_left (chars ['.'])
  refine (secondText_rising.append (Splits.divMod 1000000) fun _ _ => hmicro).subset fun micro hlt => ?_
  exact ⟨hlt, Nat.mod_lt micro (by decide)⟩

/-- Nothing is cut off a text that fits with its NUL. -/
theorem snprintf_eq {size : ℕ} {text : List UInt8} (h : text.length < size) :
    snprintf size text = text := List.take_of_length_le (by omega)

namespace Timestamp

/-- Before the year 10000 nothing is cut off the formatted text. -/
theorem toFormattedString_eq {t : Timestamp} (ht : t.year < 10000) (showMicroseconds : Bool) :
    t.toFormattedString showMicroseconds =
      if showMicroseconds then microText t.microSecondsSinceEpoch_.toNat else secondText t.seconds := by
  have hsecond : (secondText t.seconds).length = 17 := secondText_rising.width _ ht
  have hmicro : (microText t.microSecondsSinceEpoch_.toNat).length = 24 :=
    microText_rising.width _ (by rw [← seconds_eq]; exact ht)
  have htext : microText t.microSecondsSinceEpoch_.toNat =
      secondText t.seconds ++ (chars ['.'] ++ zeroFilled 6 t.microseconds) := by
    rw [microText, ← seconds_eq, ← microseconds_eq]
  cases showMicroseconds with
  | false =>
    simp only [toFormattedString, Bool.false_eq_true, if_false]
    rw [format_eq, snprintf_eq (by omega)]
  | true =>
    simp only [toFormattedString, if_true]
    rw [format_eq, List.append_assoc, ← htext, snprintf_eq (by omega)]

/-- Up to the year 9999 the formatted texts sort as the times do: with
microseconds they tell any two timestamps apart, without them the seconds. -/
theorem toFormattedString_sorts {t u : Timestamp} (ht : t.year < 10000) (hu : u.year < 10000) :
    (t.toFormattedString true).length = 24 ∧ (t.toFormattedString false).length = 17 ∧
      (t.toFormattedString true < u.toFormattedString true ↔
        t.microSecondsSinceEpoch_ < u.microSecondsSinceEpoch_) ∧
      (t.toFormattedString false < u.toFormattedString false ↔ t.seconds < u.seconds) := by
  have ht' : (gmtime_r (t.microSecondsSinceEpoch_.toNat / 1000000)).tm_year + 1900 < 10000 := by
    rw [← seconds_eq]
    exact ht
  have hu' : (gmtime_r (u.microSecondsSinceEpoch_.toNat / 1000000)).tm_year + 1900 < 10000 := by
    rw [← seconds_eq]
    exact hu
  rw [toFormattedString_eq ht, toFormattedString_eq ht, toFormattedString_eq hu,
    toFormattedString_eq hu, UInt64.lt_iff_toNat_lt]
  exact ⟨microText_rising.width _ ht', secondText_rising.width _ ht, microText_rising.lt_iff ht' hu',
    secondText_rising.lt_iff ht hu⟩

/-- What a reader makes of the text: seconds, a point, six digits. -/
def reading (text : List UInt8) : ℕ :=
  decimal.reading (text.take (text.length - 7)) * 1000000 +
    decimal.reading (text.drop (text.length - 6))

theorem length_microseconds (t : Timestamp) : (zeroFilled 6 t.microseconds).length = 6 :=
  (zeroFilled_rising 5).width _ t.microseconds_lt

/-- Nothing is cut off the plain text. -/
theorem toString_eq (t : Timestamp) :
    t.toString = decimal.numeral t.seconds ++ chars ['.'] ++ zeroFilled 6 t.microseconds := by
  have hseconds : (decimal.numeral t.seconds).length ≤ 14 :=
    decimal.length_numeral_le (by decide) (Nat.lt_trans t.seconds_lt (by decide))
  have hmicro := t.length_microseconds
  have hpoint : (chars ['.']).length = 1 := rfl
  rw [toString, snprintf_eq]
  rw [List.length_append, List.length_append]
  omega

/-- Every timestamp can be read back from its plain text, which begins with the
canonical numeral of the seconds. -/
theorem toString_reads_back (t : Timestamp) :
    reading t.toString = t.microSecondsSinceEpoch_.toNat ∧ ∃ front,
      decimal.IsNumeral front t.seconds ∧ front ++ chars ['.'] <+: t.toString ∧
        t.toString.length = front.length + 7 ∧ t.toString.length ≤ 21 := by
  have hseconds : (decimal.numeral t.seconds).length ≤ 14 :=
    decimal.length_numeral_le (by decide) (Nat.lt_trans t.seconds_lt (by decide))
  have hmicro := t.length_microseconds
  have hpoint : (chars ['.']).length = 1 := rfl
  have hlen : t.toString.length = (decimal.numeral t.seconds).length + 7 := by
    rw [toString_eq, List.length_append, List.length_append]
    omega
  constructor
  · have hfront : t.toString.take (t.toString.length - 7) = decimal.numeral t.seconds := by
      rw [hlen, Nat.add_sub_cancel, toString_eq, List.append_assoc, List.take_left]
    have hback : t.toString.drop (t.toString.length - 6) = zeroFilled 6 t.microseconds := by
      have hsix : t.toString.length - 6 = (decimal.numeral t.seconds ++ chars ['.']).length := by
        rw [hlen, List.length_append]
        omega
      rw [hsix, toString_eq, List.drop_left]
    rw [reading, hfront, hback, (decimal.numeral_isNumeral _).reading_eq]
    have hread : decimal.reading (zeroFilled 6 t.microseconds) = t.microseconds :=
      reading_filled decimal 6 t.microseconds
    rw [hread, seconds_eq, microseconds_eq]
    omega
  · refine ⟨_, decimal.numeral_isNumeral t.seconds, ?_, hlen, by omega⟩
    rw [toString_eq]
    exact List.prefix_append _ _

/-- On the last second of February 2000 and a microsecond before the next day. -/
theorem toFormattedString_sorts_leapDay :
    let t : Timestamp := ⟨951868799999999⟩
    let u : Timestamp := ⟨951868800000000⟩
    t.year < 10000 ∧ u.year < 10000 ∧ t.toFormattedString true < u.toFormattedString true := by
  intro t u
  have ht : t.year < 10000 := by decide +kernel
  have hu : u.year < 10000 := by decide +kernel
  exact ⟨ht, hu, (toFormattedString_sorts ht hu).2.2.1.mpr (by decide)⟩

example : (Timestamp.mk 951868799999999).toFormattedString false =
    chars "20000229 23:59:59".toList := by decide +kernel

end Timestamp

end KyrosWebServer.Base
