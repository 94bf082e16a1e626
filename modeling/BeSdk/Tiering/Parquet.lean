import BeSdk.Tiering.RowTimes

/-!
# Rows in Parquet files

`tiering/parquet.go`: a table's rows in the file of the cold route, and out of it again.  The
library keeps the values it is given, so a file is the names of its columns and the values of each
row in their order.

A row goes two ways and should come back with the canonical row it had: through the canonical row
itself, decoded and taken back to the driver's values (`fromCanonical`), and through the file.
Each way loses something of its own.  `time.Parse` reads only the years 0 to 9999, and the file has
a date as `Unix() / 86400`, a division that rounds towards 1970, so that a time before it inside a
day falls on the next one.  For a type the file has no column.  Nothing else is lost
(`accepted_rows_survive_iff`): a column is looked at on its own (`goValue_parquetValue`), and a row
by its columns (`row_back_iff`).
-/

namespace BeSdk.Tiering.Rows

open BeSdk.Tiering.Classes List Prod Gather Int

inductive ParquetValue where
  | null
  | int32 (n : Int)
  | int64 (n : Int)
  | boolean (b : Bool)
  | text (s : String)
  | bytes (b : List UInt8)
  | fixed (u : BitVec 128)
deriving DecidableEq

section
variable (F : Formats Int)

def parquetValue : ColumnType → GoValue Int → Option ParquetValue
  | .textArray, v => (textArray F v).map fun items => .text (encodeTexts items)
  | .text, .str s => some (.text s)
  | .numeric, .str s => some (.text s)
  | .jsonb, .str s => some (.text s)
  | .int2, .int n => some (.int32 n)
  | .int4, .int n => some (.int32 n)
  | .int8, .int n => some (.int64 n)
  | .bool, .bool b => some (.boolean b)
  | .uuid, .uuid u => some (.fixed u)
  -- `UnixMicro` is undefined where the microseconds are no int64; it wraps around
  | .timestamptz, .time t => some (.int64 (Int.bmod (t / 1000) (2 ^ 64)))
  -- Go's division rounds towards zero, the conversion to int32 wraps around
  | .date, .time t => some (.int32 (Int.bmod ((unix t).tdiv 86400) (2 ^ 32)))
  | .bytea, .bytes b => some (.bytes b)
  | _, _ => none

/-- goValue is a stored value back as the canonical row takes it. -/
def goValue : ColumnType → ParquetValue → Option (GoValue Int)
  | _, .null => some .null
  | .text, .text s => some (.str s)
  | .numeric, .text s => some (.str s)
  | .jsonb, .text s => some (.str s)
  | .textArray, .text s => (textArray F (.str s)).map fun items => .list (items.map some)
  | .int2, .int32 n => some (.int (Int.bmod n (2 ^ 16)))
  | .int4, .int32 n => some (.int n)
  | .int8, .int64 n => some (.int n)
  | .bool, .boolean b => some (.bool b)
  | .uuid, .fixed u => some (.uuid u)
  | .timestamptz, .int64 n => some (.time (n * 1000))
  | .date, .int32 n => some (.time (n * 86400 * second))
  | .bytea, .bytes b => some (.bytes b)
  | _, _ => none

end

def columnNames (t : Table) : List String := (t.columns.map fst).dedup.insertionSort (· ≤ ·)

structure ParquetFile where
  names : List String
  rows : List (List ParquetValue)
deriving DecidableEq

section
variable (F : Formats Int) (t : Table)

/-- The columns of a file for the table; one type without a Parquet type is an error. -/
def parquetSchema : Option (List String) :=
  if (columnNames t).all fun name => (t.typeOf name).any ColumnType.known then some (columnNames t)
  else none

/-- A column of a row as it is written; it is null where the row has none. -/
def parquetCell (r : GoMap Int) (name : String) : Option ParquetValue :=
  match cell r name with
  | .null => some .null
  | v => (t.typeOf name).bind fun typ => parquetValue F typ v

def parquetRow (r : GoMap Int) : Option (List ParquetValue) :=
  (columnNames t).mapM (parquetCell F t r)

def writeParquet (rows : List (GoMap Int)) : Option ParquetFile :=
  (parquetSchema t).bind fun names => (rows.mapM (parquetRow F t)).map fun values => ⟨names, values⟩

def goCell (name : String) (v : ParquetValue) : Option (String × GoValue Int) :=
  (t.typeOf name).bind fun typ => (goValue F typ v).map fun v' => (name, v')

def goRow (values : List ParquetValue) : Option (GoMap Int) :=
  ((columnNames t).zip values).mapM fun p => goCell F t p.1 p.2

/-- ReadParquet reads one table's rows back; the file's columns must be the table's. -/
def readParquet (file : ParquetFile) : Option (List (GoMap Int)) :=
  if file.names = columnNames t then file.rows.mapM (goRow F t) else none

end

/-! ## One column -/

/-- The file keeps a date: it is not before 1970 and inside a day. -/
def WholeDay : ColumnType → GoValue Int → Prop
  | .date, .time t => 0 ≤ unix t ∨ unix t % 86400 = 0
  | _, _ => True

variable {L : Libraries} {typ : ColumnType} {v : GoValue Int} {c : Canon}

theorem fourDigits_bounds {t : Int} (h : FourDigits (yearOf t)) :
    -719528 ≤ dayOf t ∧ dayOf t < 2932897 := by
  obtain ⟨hge, hlt⟩ := Calendar.yearStart_yearOf (dayOf t)
  unfold FourDigits yearOf at h
  unfold Calendar.yearStart at hge hlt
  omega

theorem micros_back {t : Int} (h : FourDigits (yearOf t)) :
    Int.bmod (t / 1000) (2 ^ 64) * 1000 = truncated t := by
  obtain ⟨hge, hlt⟩ := fourDigits_bounds h
  simp only [dayOf, unix, second] at hge hlt
  rw [bmod_eq_of_le (by omega) (by omega), truncated]

theorem dateText_inj {t t' : Int} (h : FourDigits (yearOf t)) :
    dateText t' = dateText t ↔ dayOf t' = dayOf t := by
  constructor
  · intro htext
    have hparse := parseDate_dateText t'
    rw [htext, parseDate_dateText, if_pos h] at hparse
    split at hparse
    · have heq := Option.some.inj hparse
      unfold second at heq
      omega
    cases hparse
  intro hday
  rw [dateText, dateText, hday]

/-- A day of these years comes back, unless it is the day after. -/
theorem dateText_back_iff {t : Int} (h : FourDigits (yearOf t)) :
    dateText (Int.bmod ((unix t).tdiv 86400) (2 ^ 32) * 86400 * second) = dateText t ↔
      0 ≤ unix t ∨ unix t % 86400 = 0 := by
  obtain ⟨hge, hlt⟩ := fourDigits_bounds h
  have hday : ∀ n : Int, dayOf (n * 86400 * second) = n := by
    intro n
    simp only [dayOf, unix, second]
    omega
  rw [dateText_inj h, hday]
  unfold dayOf at hge hlt ⊢
  have hdiv := tdiv_eq_ediv (a := unix t) (b := 86400)
  simp only [dvd_iff_emod_eq_zero, show Int.sign 86400 = 1 from rfl] at hdiv
  by_cases hwhole : 0 ≤ unix t ∨ unix t % 86400 = 0
  · rw [if_pos hwhole] at hdiv
    rw [hdiv, bmod_eq_of_le (by omega) (by omega)]
    exact iff_of_true (add_zero _) hwhole
  rw [if_neg hwhole] at hdiv
  rw [hdiv, bmod_eq_of_le (by omega) (by omega)]
  refine iff_of_false ?_ hwhole
  omega

/-- A value that has a canonical one is written and read; what is read has the same, except for a
date inside a day before 1970. -/
theorem goValue_parquetValue (hv : Typed typ v) (hc : value L.formats typ v = some c) :
    ∃ p v', parquetValue L.formats typ v = some p ∧ goValue L.formats typ p = some v' ∧
      Typed typ v' ∧
        (Readable L.formats typ v → (value L.formats typ v' = some c ↔ WholeDay typ v)) := by
  have hsame : WholeDay typ v → (Readable L.formats typ v →
      (value L.formats typ v = some c ↔ WholeDay typ v)) :=
    fun hwhole _ => iff_of_true hc hwhole
  cases hv with
  | text s => exact ⟨_, _, rfl, rfl, .text s, hsame trivial⟩
  | numeric s => exact ⟨_, _, rfl, rfl, .numeric s, hsame trivial⟩
  | jsonb s => exact ⟨_, _, rfl, rfl, .jsonb s, hsame trivial⟩
  | @int2 n hge hlt =>
    refine ⟨_, _, rfl, rfl, ?_⟩
    rw [bmod_eq_of_le (by omega) (by omega)]
    exact ⟨.int2 hge hlt, hsame trivial⟩
  | int4 hge hlt => exact ⟨_, _, rfl, rfl, .int4 hge hlt, hsame trivial⟩
  | int8 hge hlt => exact ⟨_, _, rfl, rfl, .int8 hge hlt, hsame trivial⟩
  | bool b => exact ⟨_, _, rfl, rfl, .bool b, hsame trivial⟩
  | uuid u => exact ⟨_, _, rfl, rfl, .uuid u, hsame trivial⟩
  | bytea b => exact ⟨_, _, rfl, rfl, .bytea b, hsame trivial⟩
  | timestamptz t =>
    refine ⟨_, _, rfl, rfl, .timestamptz _, fun hread => ?_⟩
    have hyear := (readable_formats_iff L _ _).1 hread t rfl (.inl rfl)
    cases hc
    rw [micros_back hyear]
    refine iff_of_true ?_ trivial
    exact congrArg (fun s => some (Canon.str s)) (instantText_truncated t)
  | date t =>
    refine ⟨_, _, rfl, rfl, .date _, fun hread => ?_⟩
    have hyear := (readable_formats_iff L _ _).1 hread t rfl (.inr rfl)
    cases hc
    rw [WholeDay, ← dateText_back_iff hyear]
    exact ⟨fun h => Canon.str.inj (Option.some.inj h),
      fun h => congrArg (fun s => some (Canon.str s)) h⟩
  | textArray raw =>
    obtain ⟨items, hitems, rfl⟩ := Option.map_eq_some_iff.1 hc
    have htexts := textArray_texts hitems
    have hback : textArray L.formats (.str (encodeTexts items)) = some items := by
      rw [textArray]
      simp only [Libraries.formats, L.readTexts_encodeTexts]
      exact htexts
    refine ⟨.text (encodeTexts items), .list (items.map some), ?_, ?_, .textArray _, ?_⟩
    · rw [parquetValue, hitems, Option.map_some]
    · rw [goValue, hback, Option.map_some]
    intro _
    refine iff_of_true ?_ trivial
    rw [value, htexts, Option.map_some]

/-! ## One row -/

variable {t : Table} {r r' : GoMap Int} {b b' : CanonRow} {name col : String}

theorem mem_columnNames : name ∈ columnNames t ↔ ∃ typ, t.typeOf name = some typ := by
  rw [columnNames, mem_insertionSort, mem_dedup, Table.typeOf, ← Option.isSome_iff_exists,
    lookup_isSome_iff]
  simp

theorem columnNames_nodup : (columnNames t).Nodup :=
  ((perm_insertionSort ..).nodup_iff).2 (nodup_dedup _)

theorem parquetSchema_eq_some_iff {names : List String} : parquetSchema t = some names ↔
    (∀ name typ, t.typeOf name = some typ → typ.known = true) ∧ names = columnNames t := by
  have hall : ((columnNames t).all fun name => (t.typeOf name).any ColumnType.known) = true ↔
      ∀ name typ, t.typeOf name = some typ → typ.known = true := by
    rw [all_eq_true]
    constructor
    · intro h name typ htyp
      have hname := h name (mem_columnNames.2 ⟨typ, htyp⟩)
      rwa [htyp] at hname
    intro h name hname
    obtain ⟨typ, htyp⟩ := mem_columnNames.1 hname
    rw [htyp]
    exact h name typ htyp
  rw [parquetSchema, ← hall]
  split
  · next hknown => simp [hknown, eq_comm]
  next hknown => simp [hknown]

/-- Canonical rows are equal when they say the same of each column. -/
theorem row_eq_iff {F : Formats Int} {types : List (String × ColumnType)}
    (hnodup : (r.map fst).Nodup) (hnodup' : (r'.map fst).Nodup)
    (h : row F types r = some b) (h' : row F types r' = some b') :
    b' = b ↔ ∀ col c, cellValue F types r' col = some c ↔ cellValue F types r col = some c := by
  simp only [cellValue_eq_some_iff hnodup h, cellValue_eq_some_iff hnodup' h']
  constructor
  · rintro rfl col c
    rfl
  intro hmem
  have hkeys := row_nodup hnodup h
  have hperm : b'.Perm b := by
    rw [perm_ext_iff_of_nodup (row_nodup hnodup' h').of_map hkeys.of_map]
    exact fun p => hmem p.1 p.2
  refine hperm.eq_of_pairwise ?_ (row_sorted h') (row_sorted h)
  intro p q hp hq hpq hqp
  exact inj_on_of_nodup_map hkeys (hperm.mem_iff.1 hp) hq (le_antisymm hpq hqp)

/-- What is read for a column of a row: null where it was, and otherwise a value of the column's
type, with the canonical value it had unless it is a date inside a day before 1970. -/
def Back (L : Libraries) (t : Table) (r : GoMap Int) (name : String) (v' : GoValue Int) : Prop :=
  ∃ typ, t.typeOf name = some typ ∧
    (cell r name = .null ∧ v' = .null ∨
      ∃ c, value L.formats typ (cell r name) = some c ∧ Typed typ v' ∧
        (Readable L.formats typ (cell r name) →
          (value L.formats typ v' = some c ↔ WholeDay typ (cell r name))))

theorem cell_back (hr : TypedRow t.columns r) (h : row L.formats t.columns r = some b)
    (hname : name ∈ columnNames t) :
    ∃ p q, parquetCell L.formats t r name = some p ∧ goCell L.formats t name p = some q ∧
      q.1 = name ∧ Back L t r name q.2 := by
  obtain ⟨typ, htyp⟩ := mem_columnNames.1 hname
  cases hnull : (cell r name).isNull with
  | true =>
    have hcell : cell r name = .null := by
      cases hcell : cell r name with
      | null => rfl
      | _ => rw [hcell] at hnull; cases hnull
    refine ⟨.null, (name, .null), ?_, ?_, rfl, typ, htyp, .inl ⟨hcell, rfl⟩⟩
    · rw [parquetCell, hcell]
    rw [goCell, htyp, Option.bind_some, goValue, Option.map_some]
  | false =>
    have hmem := mem_of_cell hnull
    obtain ⟨c, hc⟩ := value_of_mem_row h hmem htyp hnull
    obtain ⟨typ', htyp', htyped⟩ := hr.types _ _ hmem hnull
    cases htyp.symm.trans htyp'
    obtain ⟨p, v', hp, hv', htyped', hback⟩ := goValue_parquetValue htyped hc
    refine ⟨p, (name, v'), ?_, ?_, rfl, typ, htyp, .inr ⟨c, hc, htyped', hback⟩⟩
    · unfold parquetCell
      split
      · next hcell => rw [hcell] at hnull; cases hnull
      rw [htyp, Option.bind_some, hp]
    rw [goCell, htyp, Option.bind_some, hv', Option.map_some]

theorem row_isSome {F : Formats Int} {types : List (String × ColumnType)}
    (h : ∀ col v, (col, v) ∈ r → v.isNull = false →
      ∃ typ c, types.lookup col = some typ ∧ value F typ v = some c) :
    ∃ b, row F types r = some b := by
  rw [← Option.isSome_iff_exists, row, Option.isSome_map, members, mapM_isSome_iff]
  intro p hp
  obtain ⟨hmem, hnull⟩ := mem_filter.1 hp
  obtain ⟨typ, c, htyp, hc⟩ := h p.1 p.2 hmem (by simpa using hnull)
  rw [htyp, Option.bind_some, hc]
  rfl

/-- A row that is read column by column has the canonical row it had, unless a date does not come
back. -/
theorem row_back_iff (hr : TypedRow t.columns r) (h : row L.formats t.columns r = some b)
    (hback : List.Forall₂ (fun name q => q.1 = name ∧ Back L t r name q.2) (columnNames t) r')
    (hread : ∀ col v typ, (col, v) ∈ r → t.typeOf col = some typ → Readable L.formats typ v) :
    row L.formats t.columns r' = some b ↔
      ∀ col v typ, (col, v) ∈ r → t.typeOf col = some typ → WholeDay typ v := by
  have hnames : r'.map fst = columnNames t :=
    (map_eq_of_forall₂ hback fun name q hq => hq.1).trans (map_id _)
  have hnodup' : (r'.map fst).Nodup := hnames ▸ columnNames_nodup
  have hcell : ∀ col v', (col, v') ∈ r' → Back L t r col v' := by
    intro col v' hmem
    obtain ⟨name, -, ⟨⟩, hname⟩ := exists_of_mem_right hback hmem
    exact hname
  have hof : ∀ {col typ}, t.typeOf col = some typ → Back L t r col (cell r' col) := by
    intro col typ htyp
    have hmem : col ∈ r'.map fst := hnames ▸ mem_columnNames.2 ⟨typ, htyp⟩
    obtain ⟨⟨col', v'⟩, hv', rfl⟩ := mem_map.1 hmem
    rw [cell_eq_of_mem hnodup' hv']
    exact hcell _ _ hv'
  constructor
  · intro hrow col v typ hmem htyp
    obtain rfl : cell r col = v := cell_eq_of_mem hr.nodup hmem
    obtain ⟨typ', htyp', ⟨hnull, -⟩ | ⟨c, hc, -, hiff⟩⟩ := hof htyp
    · rw [hnull]
      cases typ <;> trivial
    · cases htyp.symm.trans htyp'
      refine (hiff (hread col _ typ hmem htyp)).1 ?_
      -- both rows say the same of the column
      have hvalue : cellValue L.formats t.columns r col = some c :=
        Option.bind_eq_some_iff.2 ⟨typ, htyp, hc⟩
      rw [cellValue_eq_some_iff hr.nodup h, ← cellValue_eq_some_iff hnodup' hrow] at hvalue
      obtain ⟨typ'', htyp'', hvalue⟩ := Option.bind_eq_some_iff.1 hvalue
      cases htyp.symm.trans htyp''
      exact hvalue
  intro hwhole
  have hkept : ∀ {col typ c}, t.typeOf col = some typ → (value L.formats typ (cell r' col) =
      some c ↔ value L.formats typ (cell r col) = some c) := by
    intro col typ c htyp
    obtain ⟨typ', htyp', ⟨hnull, hnull'⟩ | ⟨c', hc', -, hiff⟩⟩ := hof htyp
    · rw [hnull, hnull']
    · cases htyp.symm.trans htyp'
      have hmem := mem_of_cell (isNull_of_value hc')
      have hvalue := (hiff (hread col _ typ hmem htyp)).2 (hwhole col _ typ hmem htyp)
      rw [hvalue, hc']
  obtain ⟨b', hb'⟩ : ∃ b', row L.formats t.columns r' = some b' := by
    refine row_isSome fun col v' hmem hnull => ?_
    obtain ⟨typ, htyp, ⟨-, rfl⟩ | ⟨c, hc, -⟩⟩ := hcell col v' hmem
    · cases hnull
    refine ⟨typ, c, htyp, ?_⟩
    rw [← cell_eq_of_mem hnodup' hmem]
    exact (hkept htyp).2 hc
  rw [hb', (row_eq_iff hr.nodup hnodup' h hb').2]
  intro col c
  simp only [cellValue, Option.bind_eq_some_iff]
  exact exists_congr fun typ => and_congr_right fun htyp => hkept htyp

/-! ## Files -/

/-- The rows of a table are written, and read again column by column. -/
theorem rows_back {rows : List (GoMap Int)} (hrows : ∀ r ∈ rows, TypedRow t.columns r)
    (haccepted : ∀ r ∈ rows, (row L.formats t.columns r).isSome) :
    ∃ values back, rows.mapM (parquetRow L.formats t) = some values ∧
      values.mapM (goRow L.formats t) = some back ∧
        List.Forall₂ (fun r r' => List.Forall₂ (fun name q => q.1 = name ∧ Back L t r name q.2)
          (columnNames t) r') rows back := by
  refine exists_mapM_mapM fun r hr => ?_
  obtain ⟨b, hb⟩ := Option.isSome_iff_exists.1 (haccepted r hr)
  exact exists_mapM_zip fun name hname => cell_back (hrows r hr) hb hname

variable (L t) in
/-- The rows come back from their file with the canonical rows they had. -/
def FileBack (rows : List (GoMap Int)) : Prop :=
  ∃ file back, writeParquet L.formats t rows = some file ∧
    readParquet L.formats t file = some back ∧
      back.map (row L.formats t.columns) = rows.map (row L.formats t.columns)

variable (L t) in
/-- A row comes back from its canonical row with the canonical row it had. -/
def RowBack (r : GoMap Int) : Prop :=
  ∀ b, row L.formats t.columns r = some b → ∃ r',
    fromCanonical L.formats t.columns (decode b) = some r' ∧ row L.formats t.columns r' = some b

theorem rowBack_iff (hr : TypedRow t.columns r) (haccepted : (row L.formats t.columns r).isSome) :
    RowBack L t r ↔
      ∀ col v typ, (col, v) ∈ r → t.typeOf col = some typ → Readable L.formats typ v := by
  obtain ⟨b, hb⟩ := Option.isSome_iff_exists.1 haccepted
  refine Iff.trans ?_ (fromCanonical_decode_isSome_iff hr hb)
  constructor
  · intro hback
    obtain ⟨r', hr', -⟩ := hback b hb
    rw [hr']
    rfl
  intro hsome b' hb'
  cases hb.symm.trans hb'
  obtain ⟨r', hr'⟩ := Option.isSome_iff_exists.1 hsome
  exact ⟨r', hr', (row_fromCanonical hr hb hr').2⟩

theorem fileBack_iff {rows : List (GoMap Int)} (hrows : ∀ r ∈ rows, TypedRow t.columns r)
    (haccepted : ∀ r ∈ rows, (row L.formats t.columns r).isSome)
    (hread : ∀ r ∈ rows, ∀ col v typ, (col, v) ∈ r → t.typeOf col = some typ →
      Readable L.formats typ v) :
    FileBack L t rows ↔ (∀ name typ, t.typeOf name = some typ → typ.known = true) ∧
      ∀ r ∈ rows, ∀ col v typ, (col, v) ∈ r → t.typeOf col = some typ → WholeDay typ v := by
  obtain ⟨values, back, hvalues, hback, hcells⟩ := rows_back hrows haccepted
  have hsame : back.map (row L.formats t.columns) = rows.map (row L.formats t.columns) ↔
      ∀ r ∈ rows, ∀ col v typ, (col, v) ∈ r → t.typeOf col = some typ → WholeDay typ v := by
    clear hvalues hback
    induction hcells with
    | nil => simp
    | @cons r r' rows back hcells _ ih =>
      obtain ⟨hr, hrows⟩ := forall_mem_cons.1 hrows
      obtain ⟨hsome, haccepted⟩ := forall_mem_cons.1 haccepted
      obtain ⟨hr', hread⟩ := forall_mem_cons.1 hread
      obtain ⟨b, hb⟩ := Option.isSome_iff_exists.1 hsome
      rw [map_cons, map_cons, cons_eq_cons, ih hrows haccepted hread, hb,
        row_back_iff hr hb hcells hr', forall_mem_cons]
  constructor
  · rintro ⟨file, back', hfile, hback', heq⟩
    obtain ⟨names, hnames, hfile⟩ := Option.bind_eq_some_iff.1 hfile
    obtain ⟨hknown, rfl⟩ := parquetSchema_eq_some_iff.1 hnames
    rw [hvalues, Option.map_some] at hfile
    cases hfile
    rw [readParquet, if_pos rfl, hback] at hback'
    cases hback'
    exact ⟨hknown, hsame.1 heq⟩
  rintro ⟨hknown, hwhole⟩
  refine ⟨⟨columnNames t, values⟩, back, ?_, ?_, hsame.2 hwhole⟩
  · rw [writeParquet, parquetSchema_eq_some_iff.2 ⟨hknown, rfl⟩, Option.bind_some, hvalues,
      Option.map_some]
  rw [readParquet, if_pos rfl, hback]

/-- The values that both ways keep: a time in the years 0 to 9999, and a date before 1970 at
midnight. -/
def Survives : ColumnType → GoValue Int → Prop
  | .timestamptz, .time t => FourDigits (yearOf t)
  | .date, .time t => FourDigits (yearOf t) ∧ (0 ≤ unix t ∨ unix t % 86400 = 0)
  | _, _ => True

theorem survives_iff : Survives typ v ↔ Readable L.formats typ v ∧ WholeDay typ v := by
  rw [readable_formats_iff]
  unfold Survives
  split
  · simp [WholeDay]
  · simp [WholeDay]
  rename_i hinstant hdate
  refine iff_of_true trivial ⟨?_, ?_⟩
  · rintro t rfl (rfl | rfl)
    · exact absurd rfl (hinstant t rfl)
    exact absurd rfl (hdate t rfl)
  unfold WholeDay
  split
  · exact absurd rfl (hdate _ rfl)
  trivial

/-- Rows that `Row` accepts come back with the same canonical rows, from these and from a file,
exactly when the file has a type for each column and their times survive. -/
theorem accepted_rows_survive_iff (L : Libraries) (t : Table) (rows : List (GoMap Int))
    (hrows : ∀ r ∈ rows, TypedRow t.columns r)
    (haccepted : ∀ r ∈ rows, (row L.formats t.columns r).isSome) :
    (∀ r ∈ rows, RowBack L t r) ∧ FileBack L t rows ↔
      (∀ name typ, t.typeOf name = some typ → typ.known = true) ∧
        ∀ r ∈ rows, ∀ col v typ, (col, v) ∈ r → t.typeOf col = some typ → Survives typ v := by
  have hrow : (∀ r ∈ rows, RowBack L t r) ↔ ∀ r ∈ rows, ∀ col v typ, (col, v) ∈ r →
      t.typeOf col = some typ → Readable L.formats typ v :=
    forall₂_congr fun r hr => rowBack_iff (hrows r hr) (haccepted r hr)
  have hsurvives : ∀ {typ v}, Survives typ v ↔ Readable L.formats typ v ∧ WholeDay typ v :=
    survives_iff
  rw [hrow]
  constructor
  · rintro ⟨hread, hfile⟩
    obtain ⟨hknown, hwhole⟩ := (fileBack_iff hrows haccepted hread).1 hfile
    refine ⟨hknown, fun r hr col v typ hmem htyp => hsurvives.2 ⟨?_, ?_⟩⟩
    · exact hread r hr col v typ hmem htyp
    exact hwhole r hr col v typ hmem htyp
  rintro ⟨hknown, hall⟩
  have hread : ∀ r ∈ rows, ∀ col v typ, (col, v) ∈ r → t.typeOf col = some typ →
      Readable L.formats typ v :=
    fun r hr col v typ hmem htyp => (hsurvives.1 (hall r hr col v typ hmem htyp)).1
  refine ⟨hread, (fileBack_iff hrows haccepted hread).2 ⟨hknown, ?_⟩⟩
  exact fun r hr col v typ hmem htyp => (hsurvives.1 (hall r hr col v typ hmem htyp)).2

/-- A table of entries with the time they were made at and the day they count for. -/
def entriesTable : Table where
  name := "entries"
  pk := "id"
  columns := [("id", .int8), ("made_at", .timestamptz), ("day", .date), ("tags", .textArray),
    ("amount", .numeric)]

/-- An entry of 1 January 2024, made at a time. -/
def entryAt (t : Int) : GoMap Int :=
  [("id", .int 7), ("made_at", .time t), ("day", .time (19723 * 86400 * second)),
    ("tags", .list [some "a", some "b"]), ("amount", .str "+250")]

theorem entryAt_typed (t : Int) : TypedRow entriesTable.columns (entryAt t) := by
  refine typedRow_of_all ?_ ?_
  · exact (by decide : ["id", "made_at", "day", "tags", "amount"].Nodup)
  intro p hp
  simp only [entryAt, mem_cons, not_mem_nil, or_false] at hp
  rcases hp with rfl | rfl | rfl | rfl | rfl <;> rfl

theorem entryAt_accepted (t : Int) :
    (row Libraries.plain.formats entriesTable.columns (entryAt t)).isSome := rfl

theorem entry_survives :
    (∀ r ∈ [entryAt (19723 * 86400 * second)], RowBack Libraries.plain entriesTable r) ∧
      FileBack Libraries.plain entriesTable [entryAt (19723 * 86400 * second)] := by
  refine (accepted_rows_survive_iff Libraries.plain entriesTable _ ?_ ?_).2 ⟨?_, ?_⟩
  · simpa using entryAt_typed _
  · simpa using entryAt_accepted _
  · intro name typ htyp
    obtain ⟨l, l', hcolumns, -⟩ := lookup_eq_some_iff.1 htyp
    have hmem : (name, typ) ∈ entriesTable.columns := by
      rw [hcolumns]
      simp
    simp only [entriesTable, mem_cons, Prod.mk.injEq, not_mem_nil, or_false] at hmem
    rcases hmem with ⟨-, rfl⟩ | ⟨-, rfl⟩ | ⟨-, rfl⟩ | ⟨-, rfl⟩ | ⟨-, rfl⟩ <;> rfl
  rw [forall_mem_singleton]
  intro col v typ hmem htyp
  simp only [entryAt, mem_cons, Prod.mk.injEq, not_mem_nil, or_false] at hmem
  rcases hmem with ⟨rfl, rfl⟩ | ⟨rfl, rfl⟩ | ⟨rfl, rfl⟩ | ⟨rfl, rfl⟩ | ⟨rfl, rfl⟩ <;> cases htyp
  · trivial
  · exact (by decide : FourDigits (yearOf (19723 * 86400 * second)))
  · exact (by decide : FourDigits (yearOf (19723 * 86400 * second)) ∧
      (0 ≤ unix (19723 * 86400 * second) ∨ unix (19723 * 86400 * second) % 86400 = 0))
  all_goals trivial

/-- A time of the year 10000 is accepted, and not read back from the canonical row. -/
theorem far_time_not_read_back :
    TypedRow entriesTable.columns (entryAt (253402300800 * second)) ∧
      (row Libraries.plain.formats entriesTable.columns
        (entryAt (253402300800 * second))).isSome = true ∧
      ¬ RowBack Libraries.plain entriesTable (entryAt (253402300800 * second)) := by
  refine ⟨entryAt_typed _, entryAt_accepted _, ?_⟩
  rw [rowBack_iff (entryAt_typed _) (entryAt_accepted _)]
  intro hread
  have hat : ("made_at", .time (253402300800 * second)) ∈ entryAt (253402300800 * second) := by
    simp [entryAt]
  have hyear := (readable_formats_iff _ _ _).1 (hread _ _ .timestamptz hat rfl) _ rfl (.inl rfl)
  exact absurd hyear (by decide)

end BeSdk.Tiering.Rows
