import PS4Droid.Rtc.DateTime

/-!
# Times as text

The formatters of RFC 2822 and RFC 3339 times and the parser that reads them back by fixed
columns. A text is the list of its characters, and the buffer of a formatter is the text it
holds; the string functions the source takes from the standard library come first.
-/

namespace PS4Droid.Rtc

/-! ### Strings of the standard library -/

/-- `std::to_string` of a number that is not negative. -/
def toText (n : ℕ) : List Char :=
  Nat.toDigits 10 n

/-- `operator[]`: the terminator may be read, nothing after it. -/
def charAt (s : List Char) (pos : ℕ) : Except Abort Char :=
  if pos ≤ s.length then .ok (s.getD pos (Char.ofNat 0)) else .error .outOfBounds

def substr (s : List Char) (pos count : ℕ) : Except Abort (List Char) :=
  if pos ≤ s.length then .ok ((s.drop pos).take count) else .error .outOfRange

def isSpace (c : Char) : Bool :=
  c.toNat = 32 || (9 ≤ c.toNat && c.toNat ≤ 13)

/-- The sign at the front of a number, and what follows it. -/
def splitSign (s : List Char) : Bool × List Char :=
  match s with
  | '-' :: rest => (true, rest)
  | '+' :: rest => (false, rest)
  | rest => (false, rest)

/-- `std::stoi`: blanks, a sign and digits, and then anything. -/
def stoi (s : List Char) : Except Abort ℤ :=
  let (negative, rest) := splitSign (s.dropWhile isSpace)
  let digits := rest.takeWhile Char.isDigit
  let magnitude : ℤ := Nat.ofDigitChars 10 digits 0
  let value := if negative then -magnitude else magnitude
  if digits.isEmpty then .error .invalidArgument
  else if -2 ^ 31 ≤ value ∧ value < 2 ^ 31 then .ok value
  else .error .outOfRange

/-- The number in `count` columns from `pos` on. -/
def readInt (s : List Char) (pos count : ℕ) : Except Abort ℤ := do
  stoi (← substr s pos count)

/-! ### Formatting -/

/-- A number of two columns. -/
def twoDigits (n : ℕ) : List Char :=
  if n < 10 then '0' :: toText n else toText n

/-- The offset from UTC. The sign is that of the hours, and the minutes are not padded. -/
def formatTimeZone (separator : List Char) (iTimeZoneMinutes : ℤ) : List Char :=
  let timeZoneHours := iTimeZoneMinutes.tdiv 60
  let timeZoneRemainder := iTimeZoneMinutes.tmod 60
  (if timeZoneHours < 0 then ['-'] else ['+']) ++ twoDigits timeZoneHours.natAbs ++ separator ++
    (if timeZoneRemainder = 0 then ['0', '0'] else toText timeZoneRemainder.natAbs)

/-- The tick that is written: that of the caller, or the current one, moved by the offset. -/
def formatTick (now : OrbisRtcTick) (pTickUtc : Option OrbisRtcTick) (iTimeZoneMinutes : ℤ) :
    OrbisRtcTick :=
  let tick := pTickUtc.getD now
  (sceRtcTickAddMinutes (some tick) (some tick) iTimeZoneMinutes).2.getD tick

def formatFraction (microsecond : ℕ) : List Char :=
  if microsecond ≠ 0 then '.' :: (toText (microsecond / 1000)).take 2 else ['.', '0', '0']

/-- The text of `sceRtcFormatRFC3339Precise`. -/
def textRFC3339 (formatTime : OrbisRtcDateTime) (iTimeZoneMinutes : ℤ) : List Char :=
  toText formatTime.year.toNat ++ ['-'] ++ twoDigits formatTime.month.toNat ++ ['-'] ++
    twoDigits formatTime.day.toNat ++ ['T'] ++ twoDigits formatTime.hour.toNat ++ [':'] ++
    twoDigits formatTime.minute.toNat ++ [':'] ++ twoDigits formatTime.second.toNat ++
    formatFraction formatTime.microsecond.toNat ++
    (if iTimeZoneMinutes = 0 then ['Z'] else formatTimeZone [':'] iTimeZoneMinutes)

/-- `now` is the tick of the clock, read when no tick is given. -/
def sceRtcFormatRFC3339Precise (now : OrbisRtcTick) (pszDateTime : Option (List Char))
    (pTickUtc : Option OrbisRtcTick) (iTimeZoneMinutes : ℤ) : Code × Option (List Char) :=
  match pszDateTime with
  | none => (.invalidPointer, none)
  | some _ =>
    let formatTime := timeOfTick (formatTick now pTickUtc iTimeZoneMinutes)
    (.ok, some (textRFC3339 formatTime iTimeZoneMinutes))

/-- The day of the week, from Sunday on; the first day of the year one is a Monday. The length of
the month is the value of `sceRtcGetDaysInMonth` for a year and a month that passed the checks. -/
def sceRtcGetDayOfWeek (sdkVersion : ℤ) (year month day : ℕ) : Except Code ℕ :=
  if hyear : year < 1 ∨ (0x3000000 ≤ sdkVersion ∧ 9999 < year) then .error .invalidYear
  else if hmonth : 12 < month ∨ month < 1 then .error .invalidMonth
  else if hday : day < 1 ∨ Calendar.monthLength year month < day then .error .invalidDay
  else
    let date : Calendar.Date := ⟨year, month, day, by omega, by omega, by omega, by omega, by omega⟩
    .ok ((date.dayNumber + 1) % 7)

def weekDayText : ℕ → List Char
  | 0 => "Sun, ".toList
  | 1 => "Mon, ".toList
  | 2 => "Tue, ".toList
  | 3 => "Wed, ".toList
  | 4 => "Thu, ".toList
  | 5 => "Fri, ".toList
  | 6 => "Sat, ".toList
  | _ => []

def monthText : ℕ → List Char
  | 1 => "Jan ".toList
  | 2 => "Feb ".toList
  | 3 => "Mar ".toList
  | 4 => "Apr ".toList
  | 5 => "May ".toList
  | 6 => "Jun ".toList
  | 7 => "Jul ".toList
  | 8 => "Aug ".toList
  | 9 => "Sep ".toList
  | 10 => "Oct ".toList
  | 11 => "Nov ".toList
  | 12 => "Dec ".toList
  | _ => []

/-- The text of `sceRtcFormatRFC2822`; a day of the week that is an error code has no text. -/
def textRFC2822 (sdkVersion : ℤ) (formatTime : OrbisRtcDateTime) (iTimeZoneMinutes : ℤ) :
    List Char :=
  let weekDay := sceRtcGetDayOfWeek sdkVersion formatTime.year.toNat formatTime.month.toNat
    formatTime.day.toNat
  (match weekDay with | .ok n => weekDayText n | .error _ => []) ++
    twoDigits formatTime.day.toNat ++ [' '] ++ monthText formatTime.month.toNat ++
    toText formatTime.year.toNat ++ [' '] ++ twoDigits formatTime.hour.toNat ++ [':'] ++
    twoDigits formatTime.minute.toNat ++ [':'] ++ twoDigits formatTime.second.toNat ++ [' '] ++
    (if iTimeZoneMinutes = 0 then "+0000".toList else formatTimeZone [] iTimeZoneMinutes)

/-- A time that is not valid leaves the buffer as it was. -/
def sceRtcFormatRFC2822 (sdkVersion : ℤ) (now : OrbisRtcTick) (pszDateTime : Option (List Char))
    (pTickUtc : Option OrbisRtcTick) (iTimeZoneMinutes : ℤ) : Code × Option (List Char) :=
  match pszDateTime with
  | none => (.invalidPointer, none)
  | some buffer =>
    let formatTime := timeOfTick (formatTick now pTickUtc iTimeZoneMinutes)
    if sceRtcCheckValid (some formatTime) = .ok then
      (.ok, some (textRFC2822 sdkVersion formatTime iTimeZoneMinutes))
    else (.ok, some buffer)

/-! ### Parsing -/

def getMonthFromString (monthStr : List Char) : ℤ :=
  if monthStr = "Jan".toList then 1
  else if monthStr = "Feb".toList then 2
  else if monthStr = "Mar".toList then 3
  else if monthStr = "Apr".toList then 4
  else if monthStr = "May".toList then 5
  else if monthStr = "Jun".toList then 6
  else if monthStr = "Jul".toList then 7
  else if monthStr = "Aug".toList then 8
  else if monthStr = "Sep".toList then 9
  else if monthStr = "Oct".toList then 10
  else if monthStr = "Nov".toList then 11
  else if monthStr = "Dec".toList then 12
  else 1

/-- A signed offset of hours and minutes read from the given columns and added to the tick. -/
def addTimeZone (s : List Char) (hours minutes : ℕ) (sign : ℤ) (pTickUtc : Option OrbisRtcTick) :
    Except Abort (Option OrbisRtcTick) := do
  let timeZoneOffset := (← readInt s hours 2) * 60
  let timeZoneOffset := timeZoneOffset + (← readInt s minutes 2)
  return (sceRtcTickAddMinutes pTickUtc pTickUtc (timeZoneOffset * sign)).2

/-- The code of `sceRtcGetTick` is not looked at: when it fails, the offset is added to what
the caller's tick held before. -/
def sceRtcParseRFC3339 (pTickUtc : Option OrbisRtcTick) (pszDateTime : Option (List Char)) :
    Except Abort (Code × Option OrbisRtcTick) :=
  match pTickUtc, pszDateTime with
  | some _, some dateTimeString => do
    let year ← readInt dateTimeString 0 4
    let month ← readInt dateTimeString 5 2
    let day ← readInt dateTimeString 8 2
    let hour ← readInt dateTimeString 11 2
    let minute ← readInt dateTimeString 14 2
    let second ← readInt dateTimeString 17 2
    let point ← charAt dateTimeString 19
    let (microsecond, timezonePos) ←
      if point = '.' then do pure ((← readInt dateTimeString 20 2), 22) else pure (0, 19)
    let dateTime : OrbisRtcDateTime :=
      ⟨.ofInt year, .ofInt month, .ofInt day, .ofInt hour, .ofInt minute, .ofInt second,
        .ofInt microsecond⟩
    let returned ← sceRtcGetTick (some dateTime) pTickUtc
    let zone ← charAt dateTimeString timezonePos
    let tick ←
      if zone = 'Z' then pure returned.pTick
      else if zone = '-' then
        addTimeZone dateTimeString (timezonePos + 1) (timezonePos + 4) (-1) returned.pTick
      else if zone = '+' then
        addTimeZone dateTimeString (timezonePos + 1) (timezonePos + 4) 1 returned.pTick
      else pure returned.pTick
    return (.ok, tick)
  | _, _ => .ok (.invalidPointer, pTickUtc)

def parseRFC2822 (pTickUtc : Option OrbisRtcTick) (dateTimeString : List Char) :
    Except Abort (Option OrbisRtcTick) := do
  let day ← readInt dateTimeString 5 2
  let month := getMonthFromString (← substr dateTimeString 8 3)
  let year ← readInt dateTimeString 12 4
  let hour ← readInt dateTimeString 17 2
  let minute ← readInt dateTimeString 20 2
  let second ← readInt dateTimeString 23 2
  let dateTime : OrbisRtcDateTime :=
    ⟨.ofInt year, .ofInt month, .ofInt day, .ofInt hour, .ofInt minute, .ofInt second, 0⟩
  let returned ← sceRtcGetTick (some dateTime) pTickUtc
  let zone ← charAt dateTimeString 26
  if zone = '+' then addTimeZone dateTimeString 27 29 1 returned.pTick
  else if zone = '-' then addTimeZone dateTimeString 27 29 (-1) returned.pTick
  else pure returned.pTick

def parseAsctime (pTickUtc : Option OrbisRtcTick) (dateTimeString : List Char) :
    Except Abort (Option OrbisRtcTick) := do
  let month := getMonthFromString (← substr dateTimeString 4 3)
  let day ← readInt dateTimeString 8 2
  let hour ← readInt dateTimeString 11 2
  let minute ← readInt dateTimeString 14 2
  let second ← readInt dateTimeString 17 2
  let year ← readInt dateTimeString 20 4
  let dateTime : OrbisRtcDateTime :=
    ⟨.ofInt year, .ofInt month, .ofInt day, .ofInt hour, .ofInt minute, .ofInt second, 0⟩
  let returned ← sceRtcGetTick (some dateTime) pTickUtc
  return returned.pTick

/-- The twentieth character tells the formats apart. -/
def sceRtcParseDateTime (pTickUtc : Option OrbisRtcTick) (pszDateTime : Option (List Char)) :
    Except Abort (Code × Option OrbisRtcTick) :=
  match pTickUtc, pszDateTime with
  | some _, some dateTimeString => do
    let formatKey ← charAt dateTimeString 19
    let tick ←
      if formatKey = 'Z' ∨ formatKey = '-' ∨ formatKey = '+' ∨ formatKey = '.' then
        (·.2) <$> sceRtcParseRFC3339 pTickUtc pszDateTime
      else if formatKey = ':' then parseRFC2822 pTickUtc dateTimeString
      else parseAsctime pTickUtc dateTimeString
    return (.ok, tick)
  | _, _ => .ok (.invalidPointer, pTickUtc)

end PS4Droid.Rtc
