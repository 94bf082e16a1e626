import BeSdk.Canon.Encode
import BeSdk.Library.Calendar
import BeSdk.Tiering.RowValues

/-!
# Instants and dates in canonical rows

How `time` writes an instant and a date for the canonical row and reads them back.  A time is its
nanoseconds from 1970, in UTC.  An instant is written to the microsecond, `Format` with
`2006-01-02T15:04:05.000000Z`, a date with `2006-01-02`, both with at least four digits for the year
and a sign for a year before 0.  `Parse` takes exactly four digits.  So a text is read back exactly
when its year is one of 0 to 9999 (`parseInstant_instantText`, `parseDate_dateText`), and what is
lost is what was not written.
-/

namespace BeSdk.Tiering.Rows

open Texts List Option Nat Calendar
open Canon.Encoding (encodeChar encodeString)

def second : Int := 1000000000

/-- `Unix`: the whole seconds from 1970. -/
def unix (t : Int) : Int := t / second

def dayOf (t : Int) : Int := unix t / 86400

def yearOf (t : Int) : Int := Calendar.yearOf (dayOf t)

/-- A year in four digits or more. -/
def yearChars (y : Int) : List Char := if y < 0 then '-' :: pad 4 y.natAbs else pad 4 y.natAbs

/-- `2006-01-02` -/
def dateChars (d : Date) : List Char :=
  yearChars d.year ++ '-' :: (pad 2 d.month ++ '-' :: pad 2 d.day)

/-- `T15:04:05.000000Z`, of a second of the day and a microsecond. -/
def clockChars (sec micro : Nat) : List Char :=
  'T' :: (pad 2 (sec / 3600) ++ ':' :: (pad 2 (sec / 60 % 60) ++ ':' :: (pad 2 (sec % 60) ++
    '.' :: (pad 6 micro ++ ['Z']))))

/-- `Format` with `time.DateOnly` -/
def dateText (t : Int) : String := String.ofList (dateChars (ofDays (dayOf t)))

/-- `canon.Time` -/
def instantText (t : Int) : String :=
  String.ofList (dateChars (ofDays (dayOf t)) ++
    clockChars (unix t % 86400).toNat (t % second / 1000).toNat)

/-! ## Reading -/

def dayNumber (y m d : Nat) : Option Int :=
  if h : 1 ≤ m ∧ m ≤ 12 ∧ 1 ≤ d ∧ d ≤ daysIn y m then
    some (Date.toDays ⟨y, m, d, h.1, h.2.1, h.2.2.1, h.2.2.2⟩)
  else none

/-- The day of a text's first part, `2006-01-02`. -/
def readDate (cs : List Char) : Option (Int × List Char) :=
  (readField 4 cs).bind fun y =>
    (readChar '-' y.2).bind fun cs =>
      (readField 2 cs).bind fun m =>
        (readChar '-' m.2).bind fun cs =>
          (readField 2 cs).bind fun d => (dayNumber y.1 m.1 d.1).map fun n => (n, d.2)

/-- The nanoseconds of a fraction; digits after the ninth are not read. -/
def readFraction : List Char → Option (Nat × List Char)
  | '.' :: cs =>
    let ds := cs.takeWhile Char.isDigit
    if ds = [] then none
    else some (Nat.ofDigitChars 10 ((ds ++ List.replicate 9 '0').take 9) 0, cs.drop ds.length)
  | cs => some (0, cs)

def readZone : List Char → Option Int
  | ['Z'] => some 0
  | sign :: cs =>
    if sign = '+' ∨ sign = '-' then
      (readField 2 cs).bind fun h =>
        (readChar ':' h.2).bind fun cs =>
          (readField 2 cs).bind fun m =>
            if m.2 = [] ∧ h.1 ≤ 24 ∧ m.1 ≤ 60 then
              some ((if sign = '-' then -1 else 1) * (h.1 * 3600 + m.1 * 60))
            else none
    else none
  | [] => none

/-- The nanoseconds of a text's second part, `T15:04:05.999999999Z07:00`. -/
def readClock (cs : List Char) : Option Int :=
  (readChar 'T' cs).bind fun cs =>
    (readField 2 cs).bind fun h =>
      (readChar ':' h.2).bind fun cs =>
        (readField 2 cs).bind fun m =>
          (readChar ':' m.2).bind fun cs =>
            (readField 2 cs).bind fun s =>
              (readFraction s.2).bind fun f =>
                if h.1 < 24 ∧ m.1 < 60 ∧ s.1 < 60 then
                  (readZone f.2).map fun z => (h.1 * 3600 + m.1 * 60 + s.1 - z) * second + f.1
                else none

/-- `time.Parse` with `time.DateOnly` -/
def parseDate (s : String) : Option Int :=
  (readDate s.toList).bind fun d => if d.2 = [] then some (d.1 * 86400 * second) else none

/-- `time.Parse` with `time.RFC3339Nano`, except that `Parse` also takes a comma before the fraction
and one digit for the hour, which no canonical text has. -/
def parseInstant (s : String) : Option Int :=
  (readDate s.toList).bind fun d => (readClock d.2).map fun n => d.1 * 86400 * second + n

/-! ## Reading what was written -/

def FourDigits (y : Int) : Prop := 0 ≤ y ∧ y ≤ 9999

instance (y : Int) : Decidable (FourDigits y) := inferInstanceAs (Decidable (_ ∧ _))

section
variable (d : Date)
include d

theorem dayNumber_date (h : 0 ≤ d.year) :
    dayNumber d.year.natAbs d.month d.day = some d.toDays := by
  have hyear : ((d.year.natAbs : Nat) : Int) = d.year := Int.natAbs_of_nonneg h
  have hvalid : 1 ≤ d.month ∧ d.month ≤ 12 ∧ 1 ≤ d.day ∧
      d.day ≤ daysIn d.year.natAbs d.month := by
    rw [hyear]
    exact ⟨d.one_le_month, d.month_le, d.one_le_day, d.day_le⟩
  rw [dayNumber, dif_pos hvalid]
  simp only [Date.toDays, hyear]

theorem day_lt : d.month < 10 ^ 2 ∧ d.day < 10 ^ 2 := by
  have hm := d.month_le
  have hd := d.day_le
  have hlt : ∀ m ≤ 12, ∀ leap : Bool,
      (daysBefore leap (m + 1) - daysBefore leap m).toNat ≤ 31 := by decide
  have := hlt d.month hm (isLeap d.year)
  unfold daysIn at hd
  omega

theorem readDate_dateChars (h : FourDigits d.year) (cs : List Char) :
    readDate (dateChars d ++ cs) = some (d.toDays, cs) := by
  have hneg : ¬ d.year < 0 := not_lt.2 h.1
  have hlt : d.year.natAbs < 10 ^ 4 := by
    have := h.2
    omega
  obtain ⟨hm, hd⟩ := day_lt d
  rw [readDate, dateChars, yearChars, if_neg hneg]
  simp only [append_assoc, cons_append, readField_pad (by decide) hlt,
    readField_pad (by decide) hm, readField_pad (by decide) hd, bind_some, readChar_cons,
    dayNumber_date d h.1, map_some]

theorem readDate_eq_none (h : ¬ FourDigits d.year) (cs : List Char) :
    readDate (dateChars d ++ cs) = none := by
  rw [readDate, dateChars, yearChars]
  split
  · -- the sign is no digit
    simp [readField]
  rename_i hneg
  have hle : 10 ^ 4 ≤ d.year.natAbs := by
    unfold FourDigits at h
    omega
  -- the fifth digit is no hyphen
  rw [append_assoc]
  obtain ⟨m, c, rest, hread, hc⟩ := readField_pad_of_le (by decide) hle
    ('-' :: (pad 2 d.month ++ '-' :: pad 2 d.day) ++ cs)
  have hne : c ≠ '-' := by
    rintro rfl
    cases hc
  rw [hread, bind_some, readChar, if_neg hne, bind_none]

end

theorem readFraction_micro {micro : Nat} (h : micro < 10 ^ 6) :
    readFraction ('.' :: (pad 6 micro ++ ['Z'])) = some (micro * 1000, ['Z']) := by
  have htake : (pad 6 micro ++ ['Z']).takeWhile Char.isDigit = pad 6 micro := by
    rw [takeWhile_append_of_pos fun c hc => isDigit_of_mem_pad hc]
    exact append_nil _
  have hlength : (pad 6 micro).length = 6 := length_pad (by decide) h
  have hne : pad 6 micro ≠ [] := ne_nil_of_length_pos (by omega)
  have hnine : (pad 6 micro ++ List.replicate 9 '0').take 9 =
      pad 6 micro ++ List.replicate 3 '0' := by
    rw [take_append, hlength, take_of_length_le (by omega)]
    rfl
  simp only [readFraction, htake, if_neg hne, hnine, ofDigitChars_append, ofDigitChars_pad,
    ofDigitChars_replicate_zero, drop_left' rfl]
  refine congrArg some (Prod.ext ?_ rfl)
  omega

theorem readClock_clockChars {sec micro : Nat} (hsec : sec < 86400) (hmicro : micro < 10 ^ 6) :
    readClock (clockChars sec micro) = some (sec * second + micro * 1000) := by
  have hh : sec / 3600 < 10 ^ 2 := by omega
  have hm : sec / 60 % 60 < 10 ^ 2 := by omega
  have hs : sec % 60 < 10 ^ 2 := by omega
  have hvalid : sec / 3600 < 24 ∧ sec / 60 % 60 < 60 ∧ sec % 60 < 60 := by omega
  rw [readClock, clockChars]
  simp only [readChar_cons, bind_some, readField_pad (by decide) hh,
    readField_pad (by decide) hm, readField_pad (by decide) hs, readFraction_micro hmicro,
    if_pos hvalid, readZone, map_some]
  refine congrArg some ?_
  unfold second
  omega

def truncated (t : Int) : Int := t / 1000 * 1000

theorem parseInstant_instantText (t : Int) : parseInstant (instantText t) =
    if FourDigits (yearOf t) then some (truncated t) else none := by
  have hsec : (unix t % 86400).toNat < 86400 := by omega
  have hmicro : (t % second / 1000).toNat < 10 ^ 6 := by
    unfold second
    omega
  rw [parseInstant, instantText, String.toList_ofList]
  by_cases hyear : FourDigits (yearOf t)
  · rw [if_pos hyear, readDate_dateChars _ hyear, bind_some,
      readClock_clockChars hsec hmicro, map_some, Calendar.toDays_ofDays]
    refine congrArg some ?_
    simp only [truncated, dayOf, unix, second]
    omega
  rw [if_neg hyear, readDate_eq_none _ hyear, bind_none]

theorem parseDate_dateText (t : Int) : parseDate (dateText t) =
    if FourDigits (yearOf t) then some (dayOf t * 86400 * second) else none := by
  rw [parseDate, dateText, String.toList_ofList, ← append_nil (dateChars _)]
  by_cases hyear : FourDigits (yearOf t)
  · rw [if_pos hyear, readDate_dateChars _ hyear, bind_some, if_pos rfl, Calendar.toDays_ofDays]
  rw [if_neg hyear, readDate_eq_none _ hyear, bind_none]

/-! ## The formats -/

/-- `canon.Encode` of texts. -/
def encodeTexts (items : List String) : String :=
  String.ofList ('[' :: ((items.map encodeString).intersperse [',']).flatten ++ [']'])

/-- What the code calls outside `time`: the conversions and `json.Unmarshal`. -/
structure Libraries extends Conversions where
  readTexts : String → Option (List (Option String))
  -- An array of texts is read from its canonical JSON.
  readTexts_encodeTexts : ∀ items, readTexts (encodeTexts items) = some (items.map some)

theorem instantText_truncated (t : Int) : instantText (truncated t) = instantText t := by
  have hunix : unix (truncated t) = unix t := by
    simp only [unix, truncated, second]
    omega
  have hmicro : truncated t % second / 1000 = t % second / 1000 := by
    simp only [truncated, second]
    omega
  rw [instantText, instantText, dayOf, dayOf, hunix, hmicro]

theorem dateText_day (t : Int) : dateText (dayOf t * 86400 * second) = dateText t := by
  have hday : dayOf (dayOf t * 86400 * second) = dayOf t := by
    simp only [dayOf, unix, second]
    omega
  rw [dateText, dateText, hday]

/-- The formats with the texts of `time`. -/
def Libraries.formats (L : Libraries) : Formats Int where
  toConversions := L.toConversions
  instantText := instantText
  parseInstant := parseInstant
  parseInstant_instantText := by
    intro t t' h
    rw [parseInstant_instantText] at h
    split at h <;> cases h
    exact instantText_truncated t
  dateText := dateText
  parseDate := parseDate
  parseDate_dateText := by
    intro t t' h
    rw [parseDate_dateText] at h
    split at h <;> cases h
    exact dateText_day t
  readTexts := L.readTexts

theorem Libraries.formats_instant (L : Libraries) :
    L.formats.parseInstant = parseInstant ∧ L.formats.instantText = instantText := ⟨rfl, rfl⟩

theorem Libraries.formats_date (L : Libraries) :
    L.formats.parseDate = parseDate ∧ L.formats.dateText = dateText := ⟨rfl, rfl⟩

/-- Instants and dates are read back in the years 0 to 9999. -/
theorem readable_formats_iff (L : Libraries) (typ : Classes.ColumnType) (v : GoValue Int) :
    Readable L.formats typ v ↔
      ∀ t, v = .time t → typ = .timestamptz ∨ typ = .date → FourDigits (yearOf t) := by
  have hinstant : ∀ t, (L.formats.parseInstant (L.formats.instantText t)).isSome ↔
      FourDigits (yearOf t) := by
    intro t
    rw [L.formats_instant.1, L.formats_instant.2, parseInstant_instantText]
    split <;> simp [*]
  have hdate : ∀ t, (L.formats.parseDate (L.formats.dateText t)).isSome ↔
      FourDigits (yearOf t) := by
    intro t
    rw [L.formats_date.1, L.formats_date.2, parseDate_dateText]
    split <;> simp [*]
  by_cases h : ∃ t, v = .time t ∧ (typ = .timestamptz ∨ typ = .date)
  · obtain ⟨t, rfl, htyp⟩ := h
    have hyear : (∀ t', GoValue.time t = .time t' → typ = .timestamptz ∨ typ = .date →
        FourDigits (yearOf t')) ↔ FourDigits (yearOf t) := by
      constructor
      · exact fun h => h t rfl htyp
      rintro h t' heq -
      cases heq
      exact h
    rw [hyear]
    rcases htyp with rfl | rfl
    · rw [Readable, hinstant]
    rw [Readable, hdate]
  refine iff_of_true ?_ fun t hv htyp => absurd ⟨t, hv, htyp⟩ h
  unfold Readable
  split
  · exact absurd ⟨_, rfl, .inl rfl⟩ h
  · exact absurd ⟨_, rfl, .inr rfl⟩ h
  trivial

/-! ## Reading canonical JSON

A reader of the arrays that `canon.Encode` writes, which is all a text array column of a file
holds. -/

/-- The text of canonical JSON up to its closing quote, and what comes after it. -/
def decodeString : List Char → Option (List Char × List Char)
  | [] => none
  | '"' :: cs => some ([], cs)
  | '\\' :: 'u' :: a :: b :: c :: d :: cs =>
    (readHex [a, b, c, d]).bind fun n =>
      (decodeString cs).map fun p => (Char.ofNat n :: p.1, p.2)
  | '\\' :: 'b' :: cs => (decodeString cs).map fun p => ('\x08' :: p.1, p.2)
  | '\\' :: 'f' :: cs => (decodeString cs).map fun p => ('\x0c' :: p.1, p.2)
  | '\\' :: 'n' :: cs => (decodeString cs).map fun p => ('\n' :: p.1, p.2)
  | '\\' :: 'r' :: cs => (decodeString cs).map fun p => ('\r' :: p.1, p.2)
  | '\\' :: 't' :: cs => (decodeString cs).map fun p => ('\t' :: p.1, p.2)
  | '\\' :: c :: cs => (decodeString cs).map fun p => (c :: p.1, p.2)
  | c :: cs => (decodeString cs).map fun p => (c :: p.1, p.2)

theorem decodeString_encodeChar (c : Char) (cs : List Char) :
    decodeString (encodeChar c ++ cs) = (decodeString cs).map fun p => (c :: p.1, p.2) := by
  unfold encodeChar
  iterate 7
    split
    · next h => subst h; rfl
  split
  next h =>
    have hread : readHex (hexDigits 4 c.toNat) = some c.toNat := by
      rw [readHex_hexDigits, mod_eq_of_lt (by omega)]
    change ((readHex (hexDigits 4 c.toNat)).bind fun n =>
      (decodeString cs).map fun p => (Char.ofNat n :: p.1, p.2)) = _
    rw [hread, bind_some, Char.ofNat_toNat]
  rename_i hquote hslash _ _ _ _ _ _
  rw [singleton_append, decodeString]
  · exact fun h => hquote h
  all_goals intros; exact absurd ‹_› hslash

theorem decodeString_flatMap (l cs : List Char) :
    decodeString (l.flatMap encodeChar ++ '"' :: cs) = some (l, cs) := by
  induction l with
  | nil => rfl
  | cons c l ih =>
    rw [flatMap_cons, append_assoc, decodeString_encodeChar, ih]
    rfl

/-- The texts of an array's canonical JSON, after its bracket. -/
def decodeItems : Nat → List Char → Option (List String)
  | n + 1, '"' :: cs => (decodeString cs).bind fun p =>
    match p.2 with
    | [']'] => some [String.ofList p.1]
    | ',' :: rest => (decodeItems n rest).map (String.ofList p.1 :: ·)
    | _ => none
  | _, _ => none

theorem decodeItems_encode (s : String) (items : List String) {n : Nat} (h : items.length < n) :
    decodeItems n ((((s :: items).map encodeString).intersperse [',']).flatten ++ [']']) =
      some (s :: items) := by
  induction items generalizing s n with
  | nil =>
    obtain ⟨n, rfl⟩ := exists_eq_add_one_of_ne_zero (ne_of_gt h)
    simp [encodeString, decodeItems, decodeString_flatMap]
  | cons s' items ih =>
    obtain ⟨n, rfl⟩ := exists_eq_add_one_of_ne_zero (by omega : n ≠ 0)
    have hrest := @ih s' n (by simpa using h)
    simp only [map_cons, intersperse_cons_cons, flatten_cons, encodeString,
      cons_append, append_assoc, nil_append, decodeItems, decodeString_flatMap,
      bind_some, String.ofList_toList] at hrest ⊢
    rw [hrest, map_some]

theorem length_le_encode (items : List String) :
    items.length ≤ ((items.map encodeString).intersperse [',']).flatten.length := by
  induction items with
  | nil => exact zero_le _
  | cons s items ih =>
    cases items with
    | nil => simp [encodeString]
    | cons s' items =>
      simp only [map_cons, intersperse_cons_cons, flatten_cons, length_append, length_cons] at ih ⊢
      simp only [length_nil]
      omega

def decodeTexts (s : String) : Option (List (Option String)) :=
  match s.toList with
  | ['[', ']'] => some []
  | '[' :: cs => (decodeItems cs.length cs).map fun items => items.map some
  | _ => none

theorem decodeTexts_encodeTexts (items : List String) :
    decodeTexts (encodeTexts items) = some (items.map some) := by
  cases items with
  | nil => rfl
  | cons s items =>
    have hlength := length_le_encode (s :: items)
    have hitems := decodeItems_encode s items (lt_succ_of_lt hlength)
    rw [encodeTexts, decodeTexts, String.toList_ofList, cons_append]
    split
    next heq =>
      have hzero := congrArg List.length heq
      simp only [length_cons, length_append, length_nil] at hzero hlength
      omega
    next heq =>
      cases heq
      rw [length_append]
      exact congrArg (Option.map fun items => items.map some) hitems
    next hne => exact absurd rfl (hne _)

/-- Libraries for rows of whole numbers, as `Formats.plain`. -/
def Libraries.plain : Libraries where
  toConversions := Formats.plain.toConversions
  readTexts := decodeTexts
  readTexts_encodeTexts := decodeTexts_encodeTexts

end BeSdk.Tiering.Rows
