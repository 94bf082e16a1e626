import BeSdk.Library.Texts
import Mathlib.Data.List.Sort

/-!
# The canonical encoding

`canon.Encode` against RFC 8785.  What the RFC says is stated beside the code and in its own terms:
which values have a serialization (`serializable`), and what it is (`rfc`).  The two differ in one
place: the code sorts the members of an object by the bytes of their keys, the RFC by the UTF-16
code units.  Bytes order two keys as the
code points at their first difference do (`less_utf8`), and so do code units, unless one code point
is above U+FFFF, where it is written as two surrogates, and the other between them and it
(`less_utf16`).

A Go string with valid UTF-8 is a `String` here, and what is written is the text whose UTF-8 the
buffer holds.
-/

namespace BeSdk.Canon.Encoding

open List

/-- What Encode is given, by the cases of its type switch.  A map is the list of its members. -/
inductive Value where
  | null
  | bool (b : Bool)
  | int (n : Int)
  | float
  | number (text : String)
  | str (s : String)
  | strs (l : List String)
  | list (l : List Value)
  | object (members : List (String × Value))
  | other

/-- `ErrRefused`, with what is refused. -/
inductive Refused where
  | null
  | float
  | notInteger (text : String)
  | tooLarge (n : Int)
  | type
deriving DecidableEq, Repr

/-! ## Orders of keys -/

def utf8 (c : Char) : List Nat :=
  let n := c.toNat
  if n < 0x80 then [n]
  else if n < 0x800 then [0xC0 + n / 64, 0x80 + n % 64]
  else if n < 0x10000 then [0xE0 + n / 4096, 0x80 + n / 64 % 64, 0x80 + n % 64]
  else [0xF0 + n / 262144, 0x80 + n / 4096 % 64, 0x80 + n / 64 % 64, 0x80 + n % 64]

def utf16 (c : Char) : List Nat :=
  let n := c.toNat
  if n < 0x10000 then [n] else [0xD800 + (n - 0x10000) / 1024, 0xDC00 + (n - 0x10000) % 1024]

def less : List Nat → List Nat → Bool
  | _, [] => false
  | [], _ :: _ => true
  | a :: x, b :: y => a < b || (a = b && less x y)

/-- The members by the bytes of their keys, as `sort.Strings` orders them. -/
def sortMembers {α : Type} (members : List (String × α)) : List (String × α) :=
  members.insertionSort fun a b => less (b.1.toList.flatMap utf8) (a.1.toList.flatMap utf8) = false

/-! ## Encode -/

/-- The switch of `encodeString`. -/
def encodeChar (c : Char) : List Char :=
  if c = '"' then ['\\', '"']
  else if c = '\\' then ['\\', '\\']
  else if c = '\x08' then ['\\', 'b']
  else if c = '\x0c' then ['\\', 'f']
  else if c = '\n' then ['\\', 'n']
  else if c = '\r' then ['\\', 'r']
  else if c = '\t' then ['\\', 't']
  else if c.toNat < 0x20 then '\\' :: 'u' :: Texts.hexDigits 4 c.toNat
  else [c]

def encodeString (s : String) : List Char := '"' :: s.toList.flatMap encodeChar ++ ['"']

/-- `encodeInt`: integers below 2^53. -/
def encodeInt (n : Int) : Except Refused (List Char) :=
  if 9007199254740992 ≤ n.natAbs then .error (.tooLarge n) else .ok (toString n).toList

/-- `big.Int.SetString` in base 10: a sign and digits. -/
def setString (text : String) : Option Int :=
  let digits (cs : List Char) : Option Nat :=
    if cs ≠ [] ∧ cs.all Char.isDigit then
      some (cs.foldl (fun n c => 10 * n + (c.toNat - 48)) 0)
    else none
  match text.toList with
  | '-' :: cs => (digits cs).map fun (n : Nat) => -(n : Int)
  | '+' :: cs => (digits cs).map fun (n : Nat) => (n : Int)
  | cs => (digits cs).map fun (n : Nat) => (n : Int)

/-- The elements between the brackets, with commas. -/
def bracket (opening closing : Char) (parts : List (List Char)) : List Char :=
  opening :: List.intercalate [','] parts ++ [closing]

def member (key text : List Char) : List Char := key ++ ':' :: text

mutual

/-- The type switch of `encode`. -/
def encode : Value → Except Refused (List Char)
  | .null => .error .null
  | .bool b => .ok (toString b).toList
  | .int n => encodeInt n
  | .float => .error .float
  | .number text =>
    match setString text with
    | none => .error (.notInteger text)
    | some n => encodeInt n
  | .str s => .ok (encodeString s)
  | .strs l => .ok (bracket '[' ']' (l.map encodeString))
  | .list l => ((encodeAll l).mapM id).map (bracket '[' ']')
  | .object members =>
    -- each value is encoded when its member is written, so that the first error is the one returned
    ((sortMembers (encodeMembers members)).mapM fun (e : String × Except Refused (List Char)) =>
      e.2.map (member (encodeString e.1))).map (bracket '\x7b' '\x7d')
  | .other => .error .type

def encodeAll : List Value → List (Except Refused (List Char))
  | [] => []
  | v :: l => encode v :: encodeAll l

def encodeMembers : List (String × Value) → List (String × Except Refused (List Char))
  | [] => []
  | (k, v) :: l => (k, encode v) :: encodeMembers l

end

/-! ## RFC 8785 -/

/-- The characters with an escape of two characters, besides the quotation mark and the reverse
solidus. -/
def rfcEscapes : List (Nat × Char) := [(8, 'b'), (9, 't'), (10, 'n'), (12, 'f'), (13, 'r')]

/-- A character of a string in the RFC's form: control characters have the short escape or four
lowercase hexadecimal digits, and nothing else is escaped but the quotation mark and the reverse
solidus. -/
def rfcChar (c : Char) : List Char :=
  if c.toNat < 0x20 then
    match rfcEscapes.lookup c.toNat with
    | some e => ['\\', e]
    | none => '\\' :: 'u' :: '0' :: '0' :: [(c.toNat / 16).digitChar, (c.toNat % 16).digitChar]
  else if c ∈ ['"', '\\'] then ['\\', c]
  else [c]

def rfcString (s : String) : List Char := '"' :: s.toList.flatMap rfcChar ++ ['"']

/-- The integers that every reader of JSON numbers keeps apart. -/
def safeInteger (n : Int) : Bool := -9007199254740991 ≤ n ∧ n ≤ 9007199254740991

/-- The digits of a number that has at most so many. -/
def rfcDigits : Nat → Nat → List Char
  | 0, _ => []
  | w + 1, n =>
    if n < 10 then [Char.ofNat (48 + n)] else rfcDigits w (n / 10) ++ [Char.ofNat (48 + n % 10)]

/-- A safe integer has at most sixteen digits, and is written without an exponent. -/
def rfcInt (n : Int) : List Char := (if n < 0 then ['-'] else []) ++ rfcDigits 16 n.natAbs

/-- The integer that a sign and digits stand for. -/
def rfcNumeral (text : String) : Option Int :=
  let signed := text.toList.head? = some '-' ∨ text.toList.head? = some '+'
  let digits := if signed then text.toList.tail else text.toList
  let n : Int := Nat.ofDigitChars 10 digits 0
  if digits = [] ∨ digits.any fun c => c < '0' ∨ '9' < c then none
  else some (if text.toList.head? = some '-' then -n else n)

def commas : List (List Char) → List Char
  | [] => []
  | [x] => x
  | x :: y :: l => x ++ ',' :: commas (y :: l)

mutual

/-- The values that have a serialization: those without null, floating point and numbers that are
no safe integers. -/
def serializable : Value → Bool
  | .bool _ | .str _ | .strs _ => true
  | .int n => safeInteger n
  | .number text => (rfcNumeral text).any safeInteger
  | .list l => serializableAll l
  | .object members => serializableMembers members
  | .null | .float | .other => false

def serializableAll : List Value → Bool
  | [] => true
  | v :: l => serializable v && serializableAll l

def serializableMembers : List (String × Value) → Bool
  | [] => true
  | (_, v) :: l => serializable v && serializableMembers l

end

mutual

/-- The serialization of RFC 8785: no blanks, and the members of an object in the order of the
UTF-16 code units of their keys. -/
def rfc : Value → List Char
  | .bool true => ['t', 'r', 'u', 'e']
  | .bool false => ['f', 'a', 'l', 's', 'e']
  | .int n => rfcInt n
  | .number text => rfcInt ((rfcNumeral text).getD 0)
  | .str s => rfcString s
  | .strs l => '[' :: commas (l.map rfcString) ++ [']']
  | .list l => '[' :: commas (rfcAll l) ++ [']']
  | .object members =>
    '\x7b' :: commas (((rfcMembers members).insertionSort fun a b => a.1 ≤ b.1).map Prod.snd) ++
      ['\x7d']
  | .null | .float | .other => []

def rfcAll : List Value → List (List Char)
  | [] => []
  | v :: l => rfc v :: rfcAll l

/-- The members with the code units of their keys. -/
def rfcMembers : List (String × Value) → List (List Nat × List Char)
  | [] => []
  | (k, v) :: l => (k.toList.flatMap utf16, rfcString k ++ ':' :: rfc v) :: rfcMembers l

end

/-- What a mutual recursion does to a list is a map. -/
theorem eq_map {α β : Type} {F : List α → List β} {g : α → β} (hnil : F [] = [])
    (hcons : ∀ a l, F (a :: l) = g a :: F l) (l : List α) : F l = l.map g := by
  induction l with
  | nil => exact hnil
  | cons a l ih => rw [hcons, ih, map_cons]

theorem encodeAll_eq (l : List Value) : encodeAll l = l.map encode :=
  eq_map (by rw [encodeAll]) (fun v l => by rw [encodeAll]) l

theorem encodeMembers_eq (l : List (String × Value)) :
    encodeMembers l = l.map fun e => (e.1, encode e.2) :=
  eq_map (by rw [encodeMembers]) (fun e l => by rw [encodeMembers]) l

theorem rfcAll_eq (l : List Value) : rfcAll l = l.map rfc :=
  eq_map (by rw [rfcAll]) (fun v l => by rw [rfcAll]) l

theorem rfcMembers_eq (l : List (String × Value)) : rfcMembers l =
    l.map fun e => (e.1.toList.flatMap utf16, rfcString e.1 ++ ':' :: rfc e.2) :=
  eq_map (by rw [rfcMembers]) (fun e l => by rw [rfcMembers]) l

theorem serializableAll_eq (l : List Value) : serializableAll l = l.all serializable := by
  induction l with
  | nil => rw [serializableAll, all_nil]
  | cons v l ih => rw [serializableAll, ih, all_cons]

theorem serializableMembers_eq (l : List (String × Value)) :
    serializableMembers l = l.all fun e => serializable e.2 := by
  induction l with
  | nil => rw [serializableMembers, all_nil]
  | cons e l ih => rw [serializableMembers, ih, all_cons]

theorem bracket_eq (opening closing : Char) (parts : List (List Char)) :
    bracket opening closing parts = opening :: commas parts ++ [closing] := by
  have hcommas : List.intercalate [','] parts = commas parts := by
    induction parts with
    | nil => rfl
    | cons x l ih =>
      cases l with
      | nil => simp [List.intercalate, commas]
      | cons y l => simpa [List.intercalate, commas] using ih
  rw [bracket, hcommas]

/-! ## Integers -/

theorem rfcDigits_eq {w n : Nat} (h : n < 10 ^ (w + 1)) :
    rfcDigits (w + 1) n = Nat.toDigits 10 n := by
  have hdigit : ∀ d < 10, Char.ofNat (48 + d) = d.digitChar := by decide
  induction w generalizing n with
  | zero =>
    change n < 10 at h
    rw [Nat.toDigits_of_lt_base h, rfcDigits, if_pos h, hdigit n h]
  | succ w ih =>
    rw [rfcDigits, Nat.toDigits_eq_if (by decide), ih (by omega),
      hdigit (n % 10) (Nat.mod_lt _ (by decide))]
    split
    next hlt => rw [hdigit n hlt]
    rfl

/-- `big.Int.String` writes the sign and the digits. -/
theorem encodeInt_eq (n : Int) :
    (encodeInt n).toOption = if safeInteger n then some (rfcInt n) else none := by
  by_cases hsafe : safeInteger n = true
  · have hbounds := of_decide_eq_true hsafe
    have hdigits : rfcDigits 16 n.natAbs = Nat.toDigits 10 n.natAbs := rfcDigits_eq (by omega)
    rw [if_pos hsafe, encodeInt, if_neg (by omega), rfcInt, hdigits]
    cases n with
    | ofNat n => simp [Except.toOption, toString, Int.repr, Nat.repr]
    | negSucc n => simp [Except.toOption, toString, Int.repr, Nat.repr]
  have hbounds := of_decide_eq_false (Bool.eq_false_of_not_eq_true hsafe)
  rw [if_neg hsafe, encodeInt, if_pos (by omega)]
  rfl

/-- `SetString` reads what a sign and digits stand for. -/
theorem setString_eq (text : String) : setString text = rfcNumeral text := by
  have hdigit : ∀ c : Char, c.isDigit = !(decide (c < '0' ∨ '9' < c)) := by
    intro c
    rw [Bool.eq_iff_iff]
    simp [Char.isDigit, Char.lt_def, UInt32.le_iff_toNat_le, UInt32.lt_iff_toNat_lt]
  have hread : ∀ (cs : List Char) (f : Nat → Int),
      (if cs ≠ [] ∧ cs.all Char.isDigit then
          some (cs.foldl (fun n c => 10 * n + (c.toNat - 48)) 0)
        else none).map f =
      if cs = [] ∨ cs.any (fun c => c < '0' ∨ '9' < c) then none
      else some (f (Nat.ofDigitChars 10 cs 0)) := by
    intro cs f
    have hall : (cs ≠ [] ∧ cs.all Char.isDigit = true) ↔
        ¬ (cs = [] ∨ cs.any (fun c => c < '0' ∨ '9' < c) = true) := by simp [hdigit]
    rw [if_congr hall rfl rfl, ite_not, apply_ite (Option.map f)]
    rfl
  simp only [setString, rfcNumeral]
  generalize text.toList = cs
  split
  next cs => exact hread cs _
  next cs => exact hread cs _
  next hminus hplus =>
    have hsign : cs.head? ≠ some '-' ∧ cs.head? ≠ some '+' := by
      constructor
      all_goals
        intro heq
        obtain ⟨l, rfl⟩ := head?_eq_some_iff.1 heq
      · exact hminus l rfl
      exact hplus l rfl
    simp only [hsign.1, hsign.2, or_self, if_false]
    exact hread cs _

/-! ## Strings -/

theorem encodeChar_eq (c : Char) : encodeChar c = rfcChar c := by
  by_cases hc : c.toNat < 0x20
  · -- the control characters, one by one
    have hall : ∀ n < 0x20, encodeChar (Char.ofNat n) = rfcChar (Char.ofNat n) := by decide
    rw [← Char.ofNat_toNat c]
    exact hall _ hc
  have hne : ∀ d : Char, d.toNat < 0x20 → c ≠ d := fun d hd heq => hc (heq ▸ hd)
  rw [rfcChar, if_neg hc, encodeChar]
  by_cases hquote : c = '"'
  · simp [hquote]
  by_cases hback : c = '\\'
  · simp [hback]
  simp only [hquote, hback, hc, hne '\x08' (by decide), hne '\x0c' (by decide),
    hne '\n' (by decide), hne '\r' (by decide), hne '\t' (by decide), if_false, mem_cons,
    not_mem_nil, or_self]

theorem encodeString_eq (s : String) : encodeString s = rfcString s := by
  rw [encodeString, rfcString, funext encodeChar_eq]

/-! ## The two orders -/

theorem less_append (p x y : List Nat) : less (p ++ x) (p ++ y) = less x y := by
  induction p with
  | nil => rfl
  | cons a p ih => simp [less, ih]

theorem less_append_of_ne {p q : List Nat} (hlen : p.length = q.length) (hne : p ≠ q)
    (x y : List Nat) : less (p ++ x) (q ++ y) = less p q := by
  induction p generalizing q with
  | nil => exact absurd (length_eq_zero_iff.1 hlen.symm).symm hne
  | cons a p ih =>
    cases q with
    | nil => cases hlen
    | cons b q =>
      simp only [cons_append, less]
      by_cases hab : a = b
      · subst hab
        rw [ih (Nat.succ.inj hlen) fun heq => hne (heq ▸ rfl)]
      simp [hab]

theorem less_cons {a b : Nat} (hne : a ≠ b) (x y : List Nat) :
    less (a :: x) (b :: y) = decide (a < b) := by
  simp [less, hne]

/-- Bytes are ordered as the code points at the first difference. -/
theorem less_utf8 {c d : Char} (hne : c.toNat ≠ d.toNat) (x y : List Nat) :
    less (utf8 c ++ x) (utf8 d ++ y) = decide (c.toNat < d.toNat) := by
  simp only [utf8]
  generalize c.toNat = m at *
  generalize d.toNat = n at *
  split_ifs
  all_goals first
    | (rw [less_append_of_ne (by simp) (by simp; omega), Bool.eq_iff_iff]
       simp only [less, Bool.or_eq_true, Bool.and_eq_true, decide_eq_true_eq, Bool.false_eq_true,
         and_false, or_false]
       omega)
    | (simp only [cons_append, nil_append]
       exact (less_cons (by omega) ..).trans (decide_eq_decide.2 (by omega)))

/-- A code point that two surrogates are written for. -/
def high (c : Char) : Bool := 0xFFFF < c.toNat

/-- A code point of one unit above the surrogates. -/
def upper (c : Char) : Bool := 0xE000 ≤ c.toNat ∧ c.toNat ≤ 0xFFFF

/-- Code units are ordered so too, but for a pair of both kinds. -/
theorem less_utf16 {c d : Char} (hne : c.toNat ≠ d.toNat) (hcd : (high c && upper d) = false)
    (hdc : (upper c && high d) = false) (x y : List Nat) :
    less (utf16 c ++ x) (utf16 d ++ y) = decide (c.toNat < d.toNat) := by
  have hc : c.toNat < 0xD800 ∨ 0xDFFF < c.toNat ∧ c.toNat < 0x110000 := c.valid
  have hd : d.toNat < 0xD800 ∨ 0xDFFF < d.toNat ∧ d.toNat < 0x110000 := d.valid
  simp only [high, upper, Bool.and_eq_false_iff, decide_eq_false_iff_not] at hcd hdc
  simp only [utf16]
  generalize c.toNat = m at *
  generalize d.toNat = n at *
  split_ifs
  all_goals first
    | (rw [less_append_of_ne (by simp) (by simp; omega), Bool.eq_iff_iff]
       simp only [less, Bool.or_eq_true, Bool.and_eq_true, decide_eq_true_eq, Bool.false_eq_true,
         and_false, or_false]
       omega)
    | (simp only [cons_append, nil_append]
       exact (less_cons (by omega) ..).trans (decide_eq_decide.2 (by omega)))

/-- At the first difference of two keys one has a code point above U+FFFF and the other one from
U+E000 to U+FFFF. -/
def apart : List Char → List Char → Bool
  | c :: s, d :: t => if c = d then apart s t else (high c && upper d) || (upper c && high d)
  | _, _ => false

theorem less_eq_of_not_apart {s t : List Char} (h : apart s t = false) :
    less (s.flatMap utf8) (t.flatMap utf8) = less (s.flatMap utf16) (t.flatMap utf16) := by
  have hnil8 : ∀ c x, less [] (utf8 c ++ x) = true := by
    intro c x
    simp only [utf8]
    split_ifs <;> rfl
  have hnil16 : ∀ c x, less [] (utf16 c ++ x) = true := by
    intro c x
    simp only [utf16]
    split_ifs <;> rfl
  have hright : ∀ l, less l [] = false := fun l => by cases l <;> rfl
  induction s generalizing t with
  | nil =>
    cases t with
    | nil => rfl
    | cons d t => simp only [flatMap_nil, flatMap_cons, hnil8, hnil16]
  | cons c s ih =>
    cases t with
    | nil => simp only [flatMap_nil, hright]
    | cons d t =>
      simp only [flatMap_cons]
      rw [apart] at h
      by_cases heq : c = d
      · subst heq
        rw [if_pos rfl] at h
        rw [less_append, less_append, ih h]
      rw [if_neg heq, Bool.or_eq_false_iff] at h
      have hne : c.toNat ≠ d.toNat := fun hval => heq (Char.toNat_inj.1 hval)
      rw [less_utf8 hne, less_utf16 hne h.1 h.2]

/-! ## The encoding is the RFC's -/

mutual

def plainKeys : Value → Bool
  | .list l => (plainAll l).all id
  | .object members =>
    (members.all fun e => members.all fun f => !apart e.1.toList f.1.toList) &&
      (plainMembers members).all id
  | _ => true

def plainAll : List Value → List Bool
  | [] => []
  | v :: l => plainKeys v :: plainAll l

def plainMembers : List (String × Value) → List Bool
  | [] => []
  | (_, v) :: l => plainKeys v :: plainMembers l

end

theorem plainAll_eq (l : List Value) : plainAll l = l.map plainKeys :=
  eq_map (by rw [plainAll]) (fun v l => by rw [plainAll]) l

theorem plainMembers_eq (l : List (String × Value)) :
    plainMembers l = l.map fun e => plainKeys e.2 :=
  eq_map (by rw [plainMembers]) (fun e l => by rw [plainMembers]) l

theorem less_iff_lt (x y : List Nat) : less x y = true ↔ x < y := by
  induction x generalizing y with
  | nil => cases y <;> simp [less]
  | cons a x ih =>
    cases y with
    | nil => simp [less]
    | cons b y => simp [less, cons_lt_cons_iff, ih]

theorem sortMembers_map {α β : Type} (f : α → β) (members : List (String × α)) :
    sortMembers (members.map fun e => (e.1, f e.2))
      = (sortMembers members).map fun e => (e.1, f e.2) := by
  refine (map_insertionSort _ _ _ _ fun e _ e' _ => ?_).symm
  rfl

/-- Where no two keys are apart, the bytes put the members in the order of the code units. -/
theorem insertionSort_units {β : Type} {members : List (String × Value)} (f : String × Value → β)
    (h : ∀ e ∈ members, ∀ e' ∈ members, apart e.1.toList e'.1.toList = false) :
    (members.map fun e => (e.1.toList.flatMap utf16, f e)).insertionSort (fun a b => a.1 ≤ b.1)
      = (sortMembers members).map fun e => (e.1.toList.flatMap utf16, f e) := by
  refine (map_insertionSort _ _ _ _ fun e he e' he' => ?_).symm
  rw [less_eq_of_not_apart (h e' he' e he), ← Bool.not_eq_true, less_iff_lt]
  exact not_lt

theorem toOption_map {α β : Type} (f : α → β) (x : Except Refused α) :
    (x.map f).toOption = x.toOption.map f := by
  cases x <;> rfl

/-- What is written one after the other is written if each part is. -/
theorem toOption_mapM {α β : Type} {f : α → Except Refused β} {p : α → Bool} {g : α → β}
    {l : List α} (h : ∀ a ∈ l, (f a).toOption = if p a then some (g a) else none) :
    (l.mapM f).toOption = if l.all p then some (l.map g) else none := by
  induction l with
  | nil => rfl
  | cons a l ih =>
    have ha := h a (mem_cons_self ..)
    have hl := ih fun b hb => h b (mem_cons_of_mem _ hb)
    rw [mapM_cons, all_cons, map_cons]
    cases hf : f a with
    | error e =>
      have hp : p a = false := by simpa [hf, Except.toOption] using ha
      simp [hp, Except.toOption, bind, Except.bind]
    | ok b =>
      obtain ⟨hp, rfl⟩ : p a = true ∧ b = g a := by simpa [hf, Except.toOption] using ha
      cases hrest : l.mapM f with
      | error e => simpa [hp, hrest, Except.toOption, bind, Except.bind] using hl
      | ok bs => simpa [hp, hrest, Except.toOption, bind, Except.bind, pure, Except.pure] using hl

/-- Where no object has two keys that are apart, Encode writes the RFC's serialization of a value
that has one, and refuses every other. -/
theorem encode_eq_rfc (v : Value) (h : plainKeys v = true) :
    (encode v).toOption = if serializable v then some (rfc v) else none := by
  match v with
  | .null | .float | .other => simp [encode, serializable, Except.toOption]
  | .bool true | .bool false =>
    rw [encode, serializable, rfc]
    decide
  | .int n => rw [encode, encodeInt_eq, serializable, rfc]
  | .number text =>
    rw [encode, setString_eq, serializable, rfc]
    cases rfcNumeral text with
    | none => rfl
    | some n => exact encodeInt_eq n
  | .str s => simp [encode, serializable, rfc, encodeString_eq, Except.toOption]
  | .strs l =>
    simp [encode, serializable, rfc, bracket_eq, funext encodeString_eq, Except.toOption]
  | .list l =>
    have hall : ∀ v ∈ l, plainKeys v = true := by simpa [plainKeys, plainAll_eq] using h
    have hwritten := toOption_mapM (f := id ∘ encode) fun v hv => encode_eq_rfc v (hall v hv)
    rw [encode, encodeAll_eq, mapM_map, toOption_map, hwritten, serializable, serializableAll_eq,
      rfc, rfcAll_eq, apply_ite (Option.map _), Option.map_some, bracket_eq, Option.map_none]
  | .object members =>
    rw [plainKeys, plainMembers_eq, Bool.and_eq_true] at h
    have hkeys : ∀ e ∈ members, ∀ e' ∈ members, apart e.1.toList e'.1.toList = false := by
      simpa using h.1
    have hall : ∀ e ∈ members, plainKeys e.2 = true := by simpa using h.2
    have hwritten := toOption_mapM (l := sortMembers members)
      (f := fun e => (encode e.2).map (member (encodeString e.1))) (p := fun e => serializable e.2)
      (g := fun e => rfcString e.1 ++ ':' :: rfc e.2) fun e he => by
        have hmem : e ∈ members := (mem_insertionSort _).1 he
        rw [toOption_map, encode_eq_rfc e.2 (hall e hmem), apply_ite (Option.map _),
          Option.map_some, member, encodeString_eq, Option.map_none]
    have hsame : ((sortMembers members).all fun e => serializable e.2) =
        members.all fun e => serializable e.2 := (perm_insertionSort _ _).all_eq
    rw [encode, encodeMembers_eq, sortMembers_map, mapM_map, toOption_map]
    refine (congrArg (Option.map _) hwritten).trans ?_
    rw [hsame, serializable, serializableMembers_eq, rfc, rfcMembers_eq,
      insertionSort_units _ hkeys, map_map, apply_ite (Option.map _), Option.map_some, bracket_eq,
      Option.map_none]
    rfl
termination_by sizeOf v
decreasing_by
  · have hlt := sizeOf_lt_of_mem hv
    simp only [Value.list.sizeOf_spec]
    omega
  have hlt := sizeOf_lt_of_mem hmem
  have hpair : sizeOf e = 1 + sizeOf e.1 + sizeOf e.2 := rfl
  simp only [Value.object.sizeOf_spec]
  omega

/-- A price with its name and the amounts in two currencies. -/
def price : Value :=
  .object [("name", .str "a\tb"), ("EUR", .list [.int 12, .number "-3"]), ("ok", .bool true)]

theorem encode_eq_rfc_of_price : (encode price).toOption =
    some "\x7b\"EUR\":[12,-3],\"name\":\"a\\tb\",\"ok\":true\x7d".toList := by
  have hprice : serializable price = true ∧
      rfc price = "\x7b\"EUR\":[12,-3],\"name\":\"a\\tb\",\"ok\":true\x7d".toList := by
    decide +kernel
  rw [encode_eq_rfc price (by decide +kernel), if_pos hprice.1, hprice.2]

/-- An object with the keys U+FF61 and U+1F600. -/
def faces : Value :=
  .object [(String.singleton (Char.ofNat 0xFF61), .int 1),
    (String.singleton (Char.ofNat 0x1F600), .int 2)]

/-- U+FF61 stands before U+1F600 in bytes, and after its surrogates in code units. -/
theorem faces_in_other_order :
    serializable faces = true ∧ (encode faces).toOption.isSome = true ∧
      (encode faces).toOption ≠ some (rfc faces) := by
  decide +kernel

end BeSdk.Canon.Encoding
