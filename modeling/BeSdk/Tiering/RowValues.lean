import BeSdk.Canon.Decimal
import BeSdk.Library.Gather
import BeSdk.Library.Texts
import BeSdk.Tiering.Class
import Mathlib.Data.Nat.Digits.Lemmas

/-!
# Canonical rows

`tiering/rows.go`: the value of a column in the canonical row, the canonical row and key of the
values a driver or a file reader gives, and the way back, which a copy that is written again goes.

Three kinds of values meet here, and the source holds all of them in a Go `any`:

* what the driver and the file reader give (`GoValue`, each column type its own Go type);
* what stands in a canonical row, a text, a truth value or a list of texts (`Canon`);
* what a decoded canonical row holds, which is a `GoValue` again (`Canon.toGo`).

`value` takes all three, so that it can be applied to its own results, and `driverValue` takes
the last back to the first.  Neither always succeeds.  What matters below is that where they do they
lose nothing (`value_driverValue`).

How the libraries write texts is a parameter, with what they document of it (`Formats`).
-/

namespace BeSdk.Tiering.Rows

open List Option Prod Gather Texts

open BeSdk.Canon (Decimal)
open BeSdk.Tiering.Classes

/-- The text of a uuid: hexadecimal digits in groups. -/
def uuidText (u : BitVec 128) : String :=
  String.ofList (hyphenate [8, 4, 4, 4] (hexDigits 32 u.toNat))

/-- The 16 bytes of a text's hexadecimal digits, with its hyphens taken out. -/
def uuidBytes (s : String) : Option (BitVec 128) :=
  let h := s.toList.filter fun c => c ≠ '-'
  if h.length = 32 then (readHex h).map (BitVec.ofNat 128) else none

/-- `base64.StdEncoding`; line breaks are skipped in decoding. -/
def base64 (b : List UInt8) : String := String.ofList (Texts.base64 b)

def unbase64 (s : String) : Option (List UInt8) :=
  readGroups (s.toList.filter fun c => c ≠ '\r' ∧ c ≠ '\n')

/-- `strconv.ParseInt` in base 10 for the bits. -/
def parseInt (bits : Nat) (s : String) : Option Int :=
  (readInt s).filter fun n => -2 ^ (bits - 1) ≤ n ∧ n < 2 ^ (bits - 1)

/-- `strings.TrimRight` of one character. -/
def trimRight (c : Char) (cs : List Char) : List Char := (cs.reverse.dropWhile (· = c)).reverse

/-- What `canon.Decimal` makes of a decimal's text: no zeros at the end of a fraction. -/
def trimmed (out : String) : String :=
  if '.' ∈ out.toList then String.ofList (trimRight '.' (trimRight '0' out.toList)) else out

/-- What `canon.Decimal` writes for a decimal, with the text that the library has of it. -/
def decimalText (text : Decimal → String) (d : Decimal) : String :=
  if d.coeff = 0 then "0" else trimmed (text d)

/-- What the code calls for texts, decimals and uuids. -/
structure Conversions where
  -- `norm.NFC.String`
  nfc : String → String
  nfc_nfc : ∀ s, nfc (nfc s) = nfc s
  -- `apd.NewFromString`
  readDecimal : String → Option Decimal
  -- apd's `Reduce` and `Text` with `f`; what it writes of a number it reads as the same number
  text : Decimal → String
  text_read : ∀ {d}, d.accepted = true → d.coeff ≠ 0 →
    ∃ d', readDecimal (trimmed (text d)) = some d' ∧ d'.accepted = true ∧ d'.coeff ≠ 0 ∧
      text d' = text d
  repr_read : ∀ {n : Int} {d}, readDecimal n.repr = some d → decimalText text d = n.repr
  repr_decimal : ∀ {n : Int}, -2 ^ 63 ≤ n → n < 2 ^ 63 →
    ∃ d, readDecimal n.repr = some d ∧ d.accepted = true
  -- `strings.ToLower`
  lower : String → String
  lower_lower : ∀ s, lower (lower s) = lower s
  uuidText_lower : ∀ u, lower (uuidText u) = uuidText u

/-- How the libraries the code calls write values and read them back; `τ` is `time.Time`. -/
structure Formats (τ : Type) extends Conversions where
  -- `canon.Time`
  instantText : τ → String
  -- `time.Parse` with `time.RFC3339Nano`
  parseInstant : String → Option τ
  parseInstant_instantText : ∀ {t t'}, parseInstant (instantText t) = some t' →
    instantText t' = instantText t
  -- `Format` with `time.DateOnly`
  dateText : τ → String
  -- `time.Parse` with `time.DateOnly`
  parseDate : String → Option τ
  parseDate_dateText : ∀ {t t'}, parseDate (dateText t) = some t' → dateText t' = dateText t
  -- `json.Unmarshal` into a list, `none` for an element that is no text.
  readTexts : String → Option (List (Option String))

theorem uuidBytes_uuidText (u : BitVec 128) : uuidBytes (uuidText u) = some u := by
  have hdigits : (uuidText u).toList.filter (fun c => c ≠ '-') = hexDigits 32 u.toNat := by
    rw [uuidText, String.toList_ofList]
    exact filter_hyphenate _ (hyphen_not_mem_hexDigits _ _)
  have hlt : u.toNat % 16 ^ 32 = u.toNat := Nat.mod_eq_of_lt u.isLt
  rw [uuidBytes, hdigits, if_pos (length_hexDigits ..), readHex_hexDigits, hlt,
    map_some, BitVec.ofNat_toNat, BitVec.setWidth_eq]

theorem unbase64_base64 (b : List UInt8) : unbase64 (base64 b) = some b := by
  have hfilter : (base64 b).toList.filter (fun c => c ≠ '\r' ∧ c ≠ '\n') = Texts.base64 b := by
    rw [base64, String.toList_ofList, filter_eq_self]
    intro c hc
    refine decide_eq_true ⟨?_, ?_⟩ <;> rintro rfl
    · exact not_mem_base64 (by decide) (by decide) b hc
    exact not_mem_base64 (by decide) (by decide) b hc
  rw [unbase64, hfilter, readGroups_base64]

theorem parseInt_repr {bits : Nat} {n : Int} (hge : -2 ^ (bits - 1) ≤ n)
    (hlt : n < 2 ^ (bits - 1)) : parseInt bits n.repr = some n := by
  rw [parseInt, readInt_repr, filter_some, if_pos (decide_eq_true ⟨hge, hlt⟩)]

/-- A value in a Go `any`: of the driver, of a file reader or of a decoded canonical row. -/
inductive GoValue (τ : Type) where
  | null
  | str (s : String)
  | int (n : Int)
  | bool (b : Bool)
  | uuid (u : BitVec 128)
  | time (t : τ)
  | bytes (b : List UInt8)
  -- a list, `none` for an element that is no text
  | list (items : List (Option String))
deriving DecidableEq

inductive Canon where
  | str (s : String)
  | bool (b : Bool)
  | texts (items : List String)
deriving DecidableEq, Repr

namespace Canon

/-- A canonical value as a decoded row holds it. -/
def toGo {τ : Type} : Canon → GoValue τ
  | .str s => .str s
  | .bool b => .bool b
  | .texts items => .list (items.map some)

end Canon

variable {τ : Type} (F : Formats τ)

namespace Formats

/-- `canon.Decimal`: a decimal in its normal form, where it is accepted. -/
def decimal (s : String) : Option String :=
  (F.readDecimal s).bind fun d => if d.accepted then some (decimalText F.text d) else none

/-- A text that is taken for a uuid. -/
def lowerUuid (s : String) : Option String :=
  if (F.lower s).utf8ByteSize = 36 ∧ (F.lower s).toList.count '-' = 4 then some (F.lower s)
  else none

variable {F} {s d : String}

theorem decimal_decimal (h : F.decimal s = some d) : F.decimal d = some d := by
  obtain ⟨x, -, hx⟩ := bind_eq_some_iff.1 h
  split at hx <;> cases hx
  rename_i haccepted
  by_cases hzero : x.coeff = 0
  · obtain ⟨x', hread, haccepted'⟩ := F.repr_decimal (n := 0) (by decide) (by decide)
    rw [decimalText, if_pos hzero, decimal, show F.readDecimal "0" = some x' from hread, bind_some,
      if_pos haccepted', F.repr_read hread]
    rfl
  obtain ⟨x', hread, haccepted', hne, htext⟩ := F.text_read haccepted hzero
  simp [decimal, decimalText, hzero, hread, haccepted', hne, htext]

end Formats

/-! ## Values -/

/-- A text array's elements in order, each NFC; one that is null or no text has none. -/
def textArray (v : GoValue τ) : Option (List String) :=
  let items := match v with
    | .list items => some items
    | .str s => F.readTexts s
    | _ => none
  items.bind fun items => items.mapM fun e => e.map F.nfc

def integer : GoValue τ → Option String
  | .int n => some n.repr
  | .str s => (F.decimal s).filter fun d => '.' ∉ d.toList
  | _ => none

/-- The text of a numeric value: as it came, or an integer's. -/
def numericText : GoValue τ → Option String
  | .str s => some s
  | v => integer F v

def value : ColumnType → GoValue τ → Option Canon
  | .text, .str s => some (.str (F.nfc s))
  | .int2, v => (integer F v).map .str
  | .int4, v => (integer F v).map .str
  | .int8, v => (integer F v).map .str
  | .numeric, v => ((numericText F v).bind F.decimal).map .str
  | .bool, .bool b => some (.bool b)
  | .uuid, .uuid u => some (.str (uuidText u))
  | .uuid, .str s => (F.lowerUuid s).map .str
  | .timestamptz, .time t => some (.str (F.instantText t))
  | .timestamptz, .str s => (F.parseInstant s).map fun t => .str (F.instantText t)
  | .date, .time t => some (.str (F.dateText t))
  | .date, .str s => (F.parseDate s).map fun t => .str (F.dateText t)
  | .jsonb, .str s => some (.str s)
  | .bytea, .bytes b => some (.str (base64 b))
  | .textArray, v => (textArray F v).map .texts
  | _, _ => none

def driverValue : ColumnType → GoValue τ → Option (GoValue τ)
  | .text, .str s => some (.str s)
  | .numeric, .str s => some (.str s)
  | .jsonb, .str s => some (.str s)
  | .bool, .bool b => some (.bool b)
  | .int2, .str s => (parseInt 16 s).map .int
  | .int4, .str s => (parseInt 32 s).map .int
  | .int8, .str s => (parseInt 64 s).map .int
  | .uuid, .str s => (uuidBytes s).map .uuid
  | .timestamptz, .str s => (F.parseInstant s).map .time
  | .date, .str s => (F.parseDate s).map .time
  | .bytea, .str s => (unbase64 s).map .bytes
  | .textArray, v => (textArray F v).map fun items => .list (items.map some)
  | _, _ => none

/-- The values of a column type that the driver and the file reader give. -/
inductive Typed : ColumnType → GoValue τ → Prop where
  | text (s : String) : Typed .text (.str s)
  | numeric (s : String) : Typed .numeric (.str s)
  | jsonb (s : String) : Typed .jsonb (.str s)
  | int2 {n : Int} (hge : -2 ^ 15 ≤ n) (hlt : n < 2 ^ 15) : Typed .int2 (.int n)
  | int4 {n : Int} (hge : -2 ^ 31 ≤ n) (hlt : n < 2 ^ 31) : Typed .int4 (.int n)
  | int8 {n : Int} (hge : -2 ^ 63 ≤ n) (hlt : n < 2 ^ 63) : Typed .int8 (.int n)
  | bool (b : Bool) : Typed .bool (.bool b)
  | uuid (u : BitVec 128) : Typed .uuid (.uuid u)
  | timestamptz (t : τ) : Typed .timestamptz (.time t)
  | date (t : τ) : Typed .date (.time t)
  | bytea (b : List UInt8) : Typed .bytea (.bytes b)
  | textArray (items : List (Option String)) : Typed .textArray (.list items)

def isTyped : ColumnType → GoValue τ → Bool
  | .text, .str _ => true
  | .numeric, .str _ => true
  | .jsonb, .str _ => true
  | .int2, .int n => -2 ^ 15 ≤ n ∧ n < 2 ^ 15
  | .int4, .int n => -2 ^ 31 ≤ n ∧ n < 2 ^ 31
  | .int8, .int n => -2 ^ 63 ≤ n ∧ n < 2 ^ 63
  | .bool, .bool _ => true
  | .uuid, .uuid _ => true
  | .timestamptz, .time _ => true
  | .date, .time _ => true
  | .bytea, .bytes _ => true
  | .textArray, .list _ => true
  | _, _ => false

variable {F} {typ : ColumnType} {v v' : GoValue τ} {c c' : Canon}

theorem typed_of_isTyped (h : isTyped typ v = true) : Typed typ v := by
  unfold isTyped at h
  split at h
  case h_4 | h_5 | h_6 =>
    obtain ⟨hge, hlt⟩ := of_decide_eq_true h
    constructor <;> assumption
  case h_13 => cases h
  all_goals constructor

theorem textArray_texts {items : List String} (h : textArray F v = some items) :
    textArray F (.list (items.map some)) = some items := by
  obtain ⟨raw, -, hitems⟩ := bind_eq_some_iff.1 h
  have hnfc : ∀ s ∈ items, F.nfc s = s := by
    intro s hs
    obtain ⟨e, -, he⟩ := exists_of_mem_mapM hitems hs
    obtain ⟨s', -, rfl⟩ := map_eq_some_iff.1 he
    exact F.nfc_nfc s'
  refine mapM_eq_some.2 ?_
  rw [forall₂_map_left_iff, forall₂_same]
  intro s hs
  rw [map_some, hnfc s hs]

/-- The driver's value of a canonical one has that canonical value. -/
theorem value_driverValue (hv : Typed typ v) (h : value F typ v = some c)
    (h' : driverValue F typ c.toGo = some v') : Typed typ v' ∧ value F typ v' = some c := by
  cases hv with
  | text s =>
    cases h
    cases h'
    exact ⟨.text _, congrArg (fun s => some (Canon.str s)) (F.nfc_nfc s)⟩
  | numeric s =>
    obtain ⟨d, hd, rfl⟩ := map_eq_some_iff.1 h
    cases h'
    exact ⟨.numeric _, congrArg (Option.map Canon.str) (Formats.decimal_decimal hd)⟩
  | jsonb s =>
    cases h
    cases h'
    exact ⟨.jsonb _, rfl⟩
  | int2 hge hlt =>
    cases h
    obtain ⟨n', hn', rfl⟩ := map_eq_some_iff.1 h'
    cases hn'.symm.trans (parseInt_repr hge hlt)
    exact ⟨.int2 hge hlt, rfl⟩
  | int4 hge hlt =>
    cases h
    obtain ⟨n', hn', rfl⟩ := map_eq_some_iff.1 h'
    cases hn'.symm.trans (parseInt_repr hge hlt)
    exact ⟨.int4 hge hlt, rfl⟩
  | int8 hge hlt =>
    cases h
    obtain ⟨n', hn', rfl⟩ := map_eq_some_iff.1 h'
    cases hn'.symm.trans (parseInt_repr hge hlt)
    exact ⟨.int8 hge hlt, rfl⟩
  | bool b =>
    cases h
    cases h'
    exact ⟨.bool b, rfl⟩
  | uuid u =>
    cases h
    rw [Canon.toGo, driverValue, uuidBytes_uuidText] at h'
    cases h'
    exact ⟨.uuid u, rfl⟩
  | timestamptz t =>
    cases h
    obtain ⟨t', ht', rfl⟩ := map_eq_some_iff.1 h'
    refine ⟨.timestamptz t', ?_⟩
    exact congrArg (fun s => some (Canon.str s)) (F.parseInstant_instantText ht')
  | date t =>
    cases h
    obtain ⟨t', ht', rfl⟩ := map_eq_some_iff.1 h'
    exact ⟨.date t', congrArg (fun s => some (Canon.str s)) (F.parseDate_dateText ht')⟩
  | bytea b =>
    cases h
    rw [Canon.toGo, driverValue, unbase64_base64] at h'
    cases h'
    exact ⟨.bytea b, rfl⟩
  | textArray raw =>
    obtain ⟨items, hitems, rfl⟩ := map_eq_some_iff.1 h
    obtain ⟨items', hitems', rfl⟩ := map_eq_some_iff.1 h'
    cases hitems'.symm.trans (textArray_texts hitems)
    exact ⟨.textArray _, congrArg (Option.map Canon.texts) hitems'⟩

variable (F) in
/-- An instant or a date that `time.Parse` reads from its own text, which it does for the years 0 to
9999; the other values all are. -/
def Readable : ColumnType → GoValue τ → Prop
  | .timestamptz, .time t => (F.parseInstant (F.instantText t)).isSome
  | .date, .time t => (F.parseDate (F.dateText t)).isSome
  | _, _ => True

/-- A canonical value goes back to the driver's, unless it is an instant or a date outside the
years. -/
theorem driverValue_isSome_iff (hv : Typed typ v) (h : value F typ v = some c) :
    (driverValue F typ (c.toGo : GoValue τ)).isSome ↔ Readable F typ v := by
  cases hv with
  | text s | jsonb s | bool b =>
    cases h
    exact iff_of_true rfl trivial
  | numeric s =>
    obtain ⟨d, -, rfl⟩ := map_eq_some_iff.1 h
    exact iff_of_true rfl trivial
  | int2 hge hlt | int4 hge hlt | int8 hge hlt =>
    cases h
    refine iff_of_true ?_ trivial
    rw [Canon.toGo, driverValue, parseInt_repr hge hlt]
    rfl
  | uuid u =>
    cases h
    refine iff_of_true ?_ trivial
    rw [Canon.toGo, driverValue, uuidBytes_uuidText]
    rfl
  | timestamptz t | date t =>
    cases h
    exact Eq.to_iff (by simp [Canon.toGo, driverValue, Readable])
  | bytea b =>
    cases h
    refine iff_of_true ?_ trivial
    rw [Canon.toGo, driverValue, unbase64_base64]
    rfl
  | textArray raw =>
    obtain ⟨items, hitems, rfl⟩ := map_eq_some_iff.1 h
    refine iff_of_true ?_ trivial
    rw [Canon.toGo, driverValue, textArray_texts hitems]
    rfl

theorem value_null : value F typ .null = none := by cases typ <;> rfl

/-! ## Rows -/

namespace GoValue

def isNull : GoValue τ → Bool
  | .null => true
  | _ => false

end GoValue

abbrev GoMap (τ : Type) := List (String × GoValue τ)

/-- A canonical row: its columns that are not null, in the order of their names. -/
abbrev CanonRow := List (String × Canon)

/-- What a map holds for a column, null where it has none. -/
def cell (r : GoMap τ) (col : String) : GoValue τ := (r.lookup col).getD .null

variable (F)

def cellValue (types : List (String × ColumnType)) (r : GoMap τ) (col : String) : Option Canon :=
  (types.lookup col).bind fun typ => value F typ (cell r col)

/-- The members of a canonical row; a column without a type is an error. -/
def members (types : List (String × ColumnType)) (r : GoMap τ) : Option CanonRow :=
  (r.filter fun p => !p.2.isNull).mapM fun p =>
    (types.lookup p.1).bind fun typ => (value F typ p.2).map fun c => (p.1, c)

def row (types : List (String × ColumnType)) (r : GoMap τ) : Option CanonRow :=
  (members F types r).map fun cells => cells.insertionSort fun x y => x.1 ≤ y.1

def decode (b : CanonRow) : GoMap τ := b.map fun p => (p.1, p.2.toGo)

/-- FromCanonical turns a decoded canonical row into the driver's values. -/
def fromCanonical (types : List (String × ColumnType)) (r : GoMap τ) : Option (GoMap τ) :=
  r.mapM fun p =>
    (types.lookup p.1).bind fun typ =>
      if p.2.isNull then some (p.1, .null) else (driverValue F typ p.2).map fun v => (p.1, v)

variable {F}

/-- A map of the driver's values: each column once, and each value that is not null of its column's
type. -/
structure TypedRow (types : List (String × ColumnType)) (r : GoMap τ) : Prop where
  nodup : (r.map fst).Nodup
  types : ∀ col v, (col, v) ∈ r → v.isNull = false →
    ∃ typ, types.lookup col = some typ ∧ Typed typ v

variable {types : List (String × ColumnType)} {r r' : GoMap τ} {b b' : CanonRow} {col : String}

theorem typedRow_of_all (hnodup : (r.map fst).Nodup)
    (hall : ∀ p ∈ r, (types.lookup p.1).any fun typ => isTyped typ p.2) : TypedRow types r := by
  refine ⟨hnodup, fun col v hv _ => ?_⟩
  obtain ⟨typ, htyp, hv⟩ := (any_eq_true _ _).1 (hall _ hv)
  exact ⟨typ, htyp, typed_of_isTyped hv⟩

theorem isNull_of_value (h : value F typ v = some c) : v.isNull = false := by
  cases v with
  | null => rw [value_null] at h; cases h
  | _ => rfl

theorem cell_eq_of_mem (hnodup : (r.map fst).Nodup) (h : (col, v) ∈ r) : cell r col = v := by
  rw [cell, (lookup_eq_some_iff_mem hnodup).2 h, getD_some]

theorem mem_of_cell (h : (cell r col).isNull = false) : (col, cell r col) ∈ r := by
  unfold cell at h ⊢
  cases hcol : r.lookup col with
  | none =>
    rw [hcol] at h
    cases h
  | some v =>
    obtain ⟨l₁, l₂, rfl, -⟩ := lookup_eq_some_iff.1 hcol
    simp

/-- The members of a row, one for each column that is not null. -/
theorem mem_members {cells : CanonRow} (h : members F types r = some cells) : (col, c) ∈ cells ↔
      ∃ v typ, (col, v) ∈ r ∧ types.lookup col = some typ ∧ value F typ v = some c := by
  constructor
  · intro hmem
    obtain ⟨⟨col', v⟩, hp, hv⟩ := exists_of_mem_mapM h hmem
    obtain ⟨typ, htyp, hc⟩ := bind_eq_some_iff.1 hv
    obtain ⟨c', hc', ⟨⟩⟩ := map_eq_some_iff.1 hc
    exact ⟨v, typ, (mem_filter.1 hp).1, htyp, hc'⟩
  rintro ⟨v, typ, hmem, htyp, hc⟩
  have hfilter : (col, v) ∈ r.filter fun p => !p.2.isNull :=
    mem_filter.2 ⟨hmem, by simp [isNull_of_value hc]⟩
  obtain ⟨p, hp, hf⟩ := mem_of_mem_mapM h hfilter
  rw [htyp, bind_some, hc] at hf
  cases hf
  exact hp

theorem mem_row (h : row F types r = some b) : (col, c) ∈ b ↔
    ∃ v typ, (col, v) ∈ r ∧ types.lookup col = some typ ∧ value F typ v = some c := by
  obtain ⟨cells, hcells, rfl⟩ := map_eq_some_iff.1 h
  rw [mem_insertionSort, mem_members hcells]

theorem value_of_mem_row (h : row F types r = some b) (hmem : (col, v) ∈ r)
    (htyp : types.lookup col = some typ) (hnull : v.isNull = false) :
    ∃ c, value F typ v = some c := by
  obtain ⟨cells, hcells, -⟩ := map_eq_some_iff.1 h
  have hfilter : (col, v) ∈ r.filter fun p => !p.2.isNull := mem_filter.2 ⟨hmem, by simp [hnull]⟩
  obtain ⟨p, -, hp⟩ := mem_of_mem_mapM hcells hfilter
  rw [htyp, bind_some] at hp
  obtain ⟨c, hc, -⟩ := map_eq_some_iff.1 hp
  exact ⟨c, hc⟩

/-- A canonical row says what the canonical values of its columns are. -/
theorem cellValue_eq_some_iff (hnodup : (r.map fst).Nodup) (h : row F types r = some b) :
    cellValue F types r col = some c ↔ (col, c) ∈ b := by
  rw [mem_row h, cellValue, bind_eq_some_iff]
  constructor
  · rintro ⟨typ, htyp, hc⟩
    exact ⟨_, typ, mem_of_cell (isNull_of_value hc), htyp, hc⟩
  rintro ⟨v, typ, hmem, htyp, hc⟩
  rw [cell_eq_of_mem hnodup hmem]
  exact ⟨typ, htyp, hc⟩

theorem row_sorted (h : row F types r = some b) : b.Pairwise fun x y => x.1 ≤ y.1 := by
  obtain ⟨cells, -, rfl⟩ := map_eq_some_iff.1 h
  exact pairwise_insertionSort ..

theorem row_nodup (hnodup : (r.map fst).Nodup) (h : row F types r = some b) :
    (b.map fst).Nodup := by
  obtain ⟨cells, hcells, rfl⟩ := map_eq_some_iff.1 h
  have hkeys : cells.map fst = (r.filter fun p => !p.2.isNull).map fst := by
    refine map_eq_of_forall₂ (mapM_eq_some.1 hcells) ?_
    intro p q hpq
    obtain ⟨typ, -, hq⟩ := bind_eq_some_iff.1 hpq
    obtain ⟨c, -, rfl⟩ := map_eq_some_iff.1 hq
    rfl
  have hperm := (perm_insertionSort (fun x y : String × Canon => x.1 ≤ y.1) cells).map fst
  rw [hperm.nodup_iff, hkeys]
  exact hnodup.sublist (filter_sublist.map _)

/-- A map whose values have, column by column, the canonical values of a row has that row. -/
theorem row_eq_of_forall₂ (hsorted : b.Pairwise fun x y => x.1 ≤ y.1)
    (h : List.Forall₂ (fun p q => p.1 = q.1 ∧
      ∃ typ, types.lookup q.1 = some typ ∧ value F typ p.2 = some q.2) r b) :
    row F types r = some b := by
  have hfilter : r.filter (fun p => !p.2.isNull) = r := by
    rw [filter_eq_self]
    intro p hp
    obtain ⟨q, -, -, typ, -, hq⟩ := exists_of_mem_left h hp
    simp [isNull_of_value hq]
  have hmembers : members F types r = some b := by
    rw [members, hfilter, mapM_eq_some]
    refine h.imp ?_
    rintro ⟨col, v⟩ ⟨col', c⟩ ⟨hcol, typ, htyp, hc⟩
    cases hcol
    rw [htyp, bind_some, hc, map_some]
  rw [row, hmembers, map_some, hsorted.insertionSort_eq]

theorem toGo_isNull (c : Canon) : (c.toGo : GoValue τ).isNull = false := by cases c <;> rfl

/-- The driver's values of a decoded row have that row. -/
theorem row_fromCanonical (hr : TypedRow types r) (h : row F types r = some b)
    (h' : fromCanonical F types (decode b) = some r') :
    TypedRow types r' ∧ row F types r' = some b := by
  have hrel : List.Forall₂ (fun q p => p.1 = q.1 ∧
      ∃ typ, types.lookup q.1 = some typ ∧ Typed typ p.2 ∧ value F typ p.2 = some q.2) b r' := by
    have hmap := mapM_eq_some.1 h'
    rw [decode, forall₂_map_left_iff] at hmap
    refine forall₂_imp_mem hmap ?_
    rintro ⟨col, c⟩ p hmem - hp
    obtain ⟨v, typ, hv, htyp, hc⟩ := (mem_row h).1 hmem
    obtain ⟨typ', htyp', hvtyp⟩ := hr.types col v hv (isNull_of_value hc)
    cases htyp.symm.trans htyp'
    rw [htyp, bind_some, if_neg (by simp [toGo_isNull])] at hp
    obtain ⟨v', hv', rfl⟩ := map_eq_some_iff.1 hp
    obtain ⟨htyped, hvalue⟩ := value_driverValue hvtyp hc hv'
    exact ⟨rfl, typ, htyp, htyped, hvalue⟩
  refine ⟨⟨?_, ?_⟩, row_eq_of_forall₂ (row_sorted h) (hrel.flip.imp ?_)⟩
  · rw [map_eq_of_forall₂ hrel fun q p hqp => hqp.1]
    exact row_nodup hr.nodup h
  · intro col v hmem _
    obtain ⟨q, -, hcol, typ, htyp, htyped, -⟩ := exists_of_mem_right hrel hmem
    have hcol' : col = q.1 := hcol
    rw [hcol']
    exact ⟨typ, htyp, htyped⟩
  rintro p q ⟨hcol, typ, htyp, -, hvalue⟩
  exact ⟨hcol, typ, htyp, hvalue⟩

/-! ## Decoded rows -/

/-- A decoded row goes back to the driver's values, unless one is outside the years. -/
theorem fromCanonical_decode_isSome_iff (hr : TypedRow types r) (h : row F types r = some b) :
    (fromCanonical F types (decode b)).isSome ↔
      ∀ col v typ, (col, v) ∈ r → types.lookup col = some typ → Readable F typ v := by
  have hone : ∀ {col v typ c}, (col, v) ∈ r → types.lookup col = some typ →
      value F typ v = some c →
        (((types.lookup col).bind fun typ => if (c.toGo : GoValue τ).isNull then
          some (col, .null) else (driverValue F typ c.toGo).map fun v => (col, v)).isSome ↔
            Readable F typ v) := by
    intro col v typ c hmem htyp hc
    obtain ⟨typ', htyp', htyped⟩ := hr.types col v hmem (isNull_of_value hc)
    cases htyp.symm.trans htyp'
    rw [htyp, bind_some, if_neg (by simp [toGo_isNull]), isSome_map]
    exact driverValue_isSome_iff htyped hc
  rw [fromCanonical, mapM_isSome_iff]
  constructor
  · intro hall col v typ hmem htyp
    cases hnull : v.isNull with
    | true =>
      cases v with
      | null => cases typ <;> trivial
      | _ => cases hnull
    | false =>
      obtain ⟨c, hc⟩ := value_of_mem_row h hmem htyp hnull
      exact (hone hmem htyp hc).1 (hall _ (mem_map.2 ⟨_, (mem_row h).2
        ⟨v, typ, hmem, htyp, hc⟩, rfl⟩))
  intro hall p hp
  obtain ⟨⟨col, c⟩, hmem, rfl⟩ := mem_map.1 hp
  obtain ⟨v, typ, hv, htyp, hc⟩ := (mem_row h).1 hmem
  exact (hone hv htyp hc).2 (hall col v typ hv htyp)

/-! ## Formats of whole numbers -/

def wholeDecimal (n : Int) : Decimal := ⟨.finite, decide (n < 0), n.natAbs, 0⟩

/-- The number of a decimal without its exponent. -/
def signedCoeff (d : Decimal) : Int := if d.negative then -(d.coeff : Int) else d.coeff

@[simp] theorem signedCoeff_wholeDecimal (n : Int) : signedCoeff (wholeDecimal n) = n := by
  simp only [signedCoeff, wholeDecimal, decide_eq_true_eq]
  split <;> omega

theorem natAbs_signedCoeff (d : Decimal) : (signedCoeff d).natAbs = d.coeff := by
  rw [signedCoeff]
  split <;> omega

theorem wholeDecimal_accepted {n : Int} : (wholeDecimal n).accepted = true ↔
      n.natAbs = 0 ∨ (Nat.digits 10 n.natAbs).length -
        ((Nat.digits 10 n.natAbs).takeWhile (· = 0)).length ≤ 38 := by
  simp only [Decimal.accepted, wholeDecimal, decide_eq_true_eq, true_and]
  refine or_congr_right ⟨fun h => h.1, fun h => ⟨h, by omega⟩⟩

theorem trimmed_repr (n : Int) : trimmed n.repr = n.repr := by
  refine if_neg fun hdot => ?_
  have hdigits (m : Nat) : '.' ∉ Nat.toDigits 10 m := fun h => by
    simpa using Nat.isDigit_of_mem_toDigits (b := 10) (by decide) (by decide) h
  cases n <;> simp [Int.repr, Nat.repr, hdigits] at hdot

/-- Formats for rows of whole numbers: an instant is its canonical text, and the text that is not in
NFC is an `e` with a combining accent. -/
def Formats.plain : Formats String where
  nfc := fun s => if s = "e\u0301" then "\u00e9" else s
  nfc_nfc := by
    intro s
    split
    · exact ite_self _
    rfl
  readDecimal := fun s => (readInt s).map wholeDecimal
  text := fun d => (signedCoeff d).repr
  text_read := by
    intro d hd hne
    refine ⟨wholeDecimal (signedCoeff d), ?_, ?_, (natAbs_signedCoeff d).trans_ne hne, ?_⟩
    · rw [trimmed_repr, readInt_repr, map_some]
    · rw [wholeDecimal_accepted, natAbs_signedCoeff]
      simp only [Decimal.accepted, decide_eq_true_eq] at hd
      exact hd.2.imp_right fun h => h.1
    rw [signedCoeff_wholeDecimal]
  repr_read := by
    intro n d h
    rw [readInt_repr] at h
    cases h
    rw [decimalText, signedCoeff_wholeDecimal, trimmed_repr]
    split
    next hzero => rw [Int.natAbs_eq_zero.1 hzero]; rfl
    rfl
  repr_decimal := by
    intro n hge hlt
    refine ⟨wholeDecimal n, by rw [readInt_repr, map_some], ?_⟩
    have hdigits : (Nat.digits 10 n.natAbs).length ≤ 38 := by
      rw [Nat.digits_length_le_iff (by decide)]
      omega
    exact wholeDecimal_accepted.2 (Or.inr (by omega))
  lower := id
  lower_lower := fun _ => rfl
  uuidText_lower := fun _ => rfl
  instantText := id
  parseInstant := some
  parseInstant_instantText := by
    rintro t t' ⟨⟩
    rfl
  dateText := id
  parseDate := some
  parseDate_dateText := by
    rintro t t' ⟨⟩
    rfl
  readTexts := fun _ => none

end BeSdk.Tiering.Rows
