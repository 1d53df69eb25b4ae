import Mathlib.Data.List.Basic
import Mathlib.Tactic

/-!
# JSON texts

Encoding and decoding of JSON as the Python standard library does it with its
default options: every character outside the printable ASCII range is escaped,
characters beyond the basic plane as a surrogate pair, and the decoder accepts
whitespace between tokens.  A float is kept by its literal.

Main results:

- Theorem `loads_dumps`: decoding an encoded value without floats gives the
  value back.
- Theorem `length_dumpsString_append`: length of an encoded string.
-/

namespace PyJson

open List Option

/-- A JSON value; `float` has the literal that stands for the number. -/
inductive Json where
  | null
  | bool (b : Bool)
  | int (n : Int)
  | float (literal : String)
  | str (s : String)
  | arr (items : List Json)
  | obj (members : List (String × Json))

/-- The separators of `json.dumps`. -/
structure Separators where
  item : String
  key : String
  deriving DecidableEq

namespace Separators

/-- The default separators. -/
def spaced : Separators := ⟨", ", ": "⟩

/-- `separators=(",", ":")`. -/
def compact : Separators := ⟨",", ":"⟩

end Separators

/-! ## Encoding -/

/-- A code unit as `\uXXXX`. -/
def escapeUnit (n : Nat) : List Char :=
  ['\\', 'u', (n / 4096 % 16).digitChar, (n / 256 % 16).digitChar, (n / 16 % 16).digitChar,
    (n % 16).digitChar]

/-- One character of a string. -/
def escapeChar (c : Char) : List Char :=
  if c = '"' then ['\\', '"']
  else if c = '\\' then ['\\', '\\']
  else if c = '\n' then ['\\', 'n']
  else if c = '\r' then ['\\', 'r']
  else if c = '\t' then ['\\', 't']
  else if c.toNat = 12 then ['\\', 'f']
  else if c.toNat = 8 then ['\\', 'b']
  else if 32 ≤ c.toNat ∧ c.toNat ≤ 126 then [c]
  else if c.toNat < 65536 then escapeUnit c.toNat
  else
    escapeUnit (55296 + (c.toNat - 65536) / 1024) ++ escapeUnit (56320 + (c.toNat - 65536) % 1024)

/-- A string with its quotes. -/
def dumpsString (s : String) : List Char :=
  '"' :: (s.toList.flatMap escapeChar ++ ['"'])

/-- Decimal digits of an integer. -/
def dumpsInt : Int → List Char
  | .ofNat n => Nat.toDigits 10 n
  | .negSucc n => '-' :: Nat.toDigits 10 (n + 1)

mutual

/-- `json.dumps`. -/
def dumps (sep : Separators) : Json → List Char
  | .null => "null".toList
  | .bool true => "true".toList
  | .bool false => "false".toList
  | .int n => dumpsInt n
  | .float literal => literal.toList
  | .str s => dumpsString s
  | .arr items => '[' :: (dumpsItems sep items ++ [']'])
  | .obj members => '{' :: (dumpsMembers sep members ++ ['}'])

/-- The items of an array. -/
def dumpsItems (sep : Separators) : List Json → List Char
  | [] => []
  | v :: rest => dumps sep v ++ dumpsMoreItems sep rest

/-- The items of an array behind the first. -/
def dumpsMoreItems (sep : Separators) : List Json → List Char
  | [] => []
  | v :: rest => sep.item.toList ++ dumps sep v ++ dumpsMoreItems sep rest

/-- The members of an object. -/
def dumpsMembers (sep : Separators) : List (String × Json) → List Char
  | [] => []
  | (k, v) :: rest => dumpsString k ++ sep.key.toList ++ dumps sep v ++ dumpsMoreMembers sep rest

/-- The members of an object behind the first. -/
def dumpsMoreMembers (sep : Separators) : List (String × Json) → List Char
  | [] => []
  | (k, v) :: rest =>
    sep.item.toList ++ dumpsString k ++ sep.key.toList ++ dumps sep v ++ dumpsMoreMembers sep rest

end

/-! ## Decoding -/

/-- Skip whitespace. -/
def skip : List Char → List Char
  | [] => []
  | c :: cs => if c = ' ' ∨ c = '\t' ∨ c = '\n' ∨ c = '\r' then skip cs else c :: cs

/-- Value of a hexadecimal digit. -/
def hexValue (c : Char) : Option Nat :=
  if c.isDigit then some (c.toNat - 48)
  else if 'a' ≤ c ∧ c ≤ 'f' then some (c.toNat - 87)
  else if 'A' ≤ c ∧ c ≤ 'F' then some (c.toNat - 55)
  else none

/-- Four hexadecimal digits. -/
def readUnit : List Char → Option (Nat × List Char)
  | a :: b :: c :: d :: rest => do
    let a ← hexValue a
    let b ← hexValue b
    let c ← hexValue c
    let d ← hexValue d
    some (a * 4096 + b * 256 + c * 16 + d, rest)
  | _ => none

/-- The character of an escape behind `\u`; a surrogate pair is joined.  A lone surrogate is no
character. -/
def readEscapedUnit (cs : List Char) : Option (Char × List Char) := do
  let (n, rest) ← readUnit cs
  if 55296 ≤ n ∧ n ≤ 56319 then
    match rest with
    | '\\' :: 'u' :: rest => do
      let (m, rest) ← readUnit rest
      if 56320 ≤ m ∧ m ≤ 57343 then
        some (Char.ofNat (65536 + (n - 55296) * 1024 + (m - 56320)), rest)
      else none
    | _ => none
  else if 56320 ≤ n ∧ n ≤ 57343 then none
  else some (Char.ofNat n, rest)

/-- The character of an escape behind the backslash. -/
def readEscape : List Char → Option (Char × List Char)
  | '"' :: rest => some ('"', rest)
  | '\\' :: rest => some ('\\', rest)
  | '/' :: rest => some ('/', rest)
  | 'b' :: rest => some (Char.ofNat 8, rest)
  | 'f' :: rest => some (Char.ofNat 12, rest)
  | 'n' :: rest => some ('\n', rest)
  | 'r' :: rest => some ('\r', rest)
  | 't' :: rest => some ('\t', rest)
  | 'u' :: rest => readEscapedUnit rest
  | _ => none

/-- The characters of a string up to its closing quote. -/
def readChars : Nat → List Char → Option (List Char × List Char)
  | 0, _ => none
  | _ + 1, [] => none
  | fuel + 1, c :: cs =>
    if c = '"' then some ([], cs)
    else if c = '\\' then do
      let (x, rest) ← readEscape cs
      let (xs, rest) ← readChars fuel rest
      some (x :: xs, rest)
    else if c.toNat < 32 then none
    else do
      let (xs, rest) ← readChars fuel cs
      some (c :: xs, rest)

/-- The string behind its opening quote. -/
def readString (cs : List Char) : Option (String × List Char) := do
  let (chars, rest) ← readChars (cs.length + 1) cs
  some (String.ofList chars, rest)

/-- The fraction of a number. -/
def readFraction : List Char → List Char × List Char
  | '.' :: cs =>
    let digits := cs.takeWhile Char.isDigit
    if digits = [] then ([], '.' :: cs) else ('.' :: digits, cs.dropWhile Char.isDigit)
  | cs => ([], cs)

/-- The exponent of a number. -/
def readExponent : List Char → List Char × List Char
  | [] => ([], [])
  | e :: cs =>
    if e = 'e' ∨ e = 'E' then
      let sign := cs.take 1 |>.filter fun c => c = '+' ∨ c = '-'
      let digits := (cs.drop sign.length).takeWhile Char.isDigit
      if digits = [] then ([], e :: cs)
      else (e :: sign ++ digits, (cs.drop sign.length).dropWhile Char.isDigit)
    else ([], e :: cs)

/-- The integer part of a number without its sign: no leading zeros. -/
def readDigits (cs : List Char) : Option (List Char × List Char) :=
  match cs with
  | '0' :: rest => some (['0'], rest)
  | cs =>
    let digits := cs.takeWhile Char.isDigit
    if digits = [] then none else some (digits, cs.dropWhile Char.isDigit)

/-- A number, an integer unless it has a fraction or an exponent. -/
def readNumber (cs : List Char) : Option (Json × List Char) := do
  let (sign, cs) := if cs.head? = some '-' then (['-'], cs.tail) else ([], cs)
  let (digits, cs) ← readDigits cs
  let (fraction, cs) := readFraction cs
  let (exponent, cs) := readExponent cs
  if fraction = [] ∧ exponent = [] then
    let n := Nat.ofDigitChars 10 digits 0
    some (.int (if sign = [] then n else -n), cs)
  else some (.float (String.ofList (sign ++ digits ++ fraction ++ exponent)), cs)

/-- A literal name. -/
def readLiteral (name : String) (v : Json) (cs : List Char) : Option (Json × List Char) :=
  if name.toList.isPrefixOf cs then some (v, cs.drop name.length) else none

mutual

/-- A value; the fuel bounds the depth and the number of items. -/
def readValue : Nat → List Char → Option (Json × List Char)
  | 0, _ => none
  | _ + 1, [] => none
  | fuel + 1, c :: cs =>
    if c = '"' then (readString cs).map fun e => (.str e.1, e.2)
    else if c = '[' then
      match skip cs with
      | ']' :: rest => some (.arr [], rest)
      | cs => (readItems fuel cs).map fun e => (.arr e.1, e.2)
    else if c = '{' then
      match skip cs with
      | '}' :: rest => some (.obj [], rest)
      | cs => (readMembers fuel cs).map fun e => (.obj e.1, e.2)
    else if c = 'n' then readLiteral "null" .null (c :: cs)
    else if c = 't' then readLiteral "true" (.bool true) (c :: cs)
    else if c = 'f' then readLiteral "false" (.bool false) (c :: cs)
    else readNumber (c :: cs)

/-- The items of an array up to its bracket. -/
def readItems : Nat → List Char → Option (List Json × List Char)
  | 0, _ => none
  | fuel + 1, cs => do
    let (v, rest) ← readValue fuel cs
    match skip rest with
    | ']' :: rest => some ([v], rest)
    | ',' :: rest => do
      let (vs, rest) ← readItems fuel (skip rest)
      some (v :: vs, rest)
    | _ => none

/-- The members of an object up to its brace. -/
def readMembers : Nat → List Char → Option (List (String × Json) × List Char)
  | 0, _ => none
  | fuel + 1, cs =>
    match cs with
    | '"' :: cs => do
      let (k, rest) ← readString cs
      match skip rest with
      | ':' :: rest => do
        let (v, rest) ← readValue fuel (skip rest)
        match skip rest with
        | '}' :: rest => some ([(k, v)], rest)
        | ',' :: rest => do
          let (more, rest) ← readMembers fuel (skip rest)
          some ((k, v) :: more, rest)
        | _ => none
      | _ => none
    | _ => none

end

/-- `json.loads` of a text. -/
def loads (cs : List Char) : Option Json := do
  let (v, rest) ← readValue (cs.length + 1) (skip cs)
  if skip rest = [] then some v else none

/-- `d[key]`: the last member with the key. -/
def Json.get? (v : Json) (key : String) : Option Json :=
  match v with
  | .obj members => members.reverse.lookup key
  | _ => none

/-! ## Strings -/

theorem hexValue_digitChar : ∀ d < 16, hexValue d.digitChar = some d := by decide

theorem readUnit_escapeUnit {n : Nat} (hn : n < 65536) (rest : List Char) :
    readUnit ((escapeUnit n).drop 2 ++ rest) = some (n, rest) := by
  have hvalue : n / 4096 % 16 * 4096 + n / 256 % 16 * 256 + n / 16 % 16 * 16 + n % 16 = n := by
    omega
  simp only [escapeUnit, drop_succ_cons, drop_zero, cons_append, nil_append,
    readUnit, hexValue_digitChar _ (Nat.mod_lt _ (by decide : 16 > 0)), bind_eq_bind,
    bind_some, hvalue]

theorem escapeUnit_append (n : Nat) (rest : List Char) :
    escapeUnit n ++ rest = '\\' :: 'u' :: ((escapeUnit n).drop 2 ++ rest) := rfl

theorem toNat_not_surrogate (c : Char) : c.toNat < 55296 ∨ 57343 < c.toNat ∧ c.toNat < 1114112 :=
  c.valid

theorem readEscapedUnit_basic {c : Char} (hc : c.toNat < 65536) (rest : List Char) :
    readEscapedUnit ((escapeUnit c.toNat).drop 2 ++ rest) = some (c, rest) := by
  have hvalid := toNat_not_surrogate c
  simp only [readEscapedUnit, readUnit_escapeUnit hc, bind_eq_bind, bind_some]
  rw [if_neg (by omega), if_neg (by omega), Char.ofNat_toNat]

theorem readEscapedUnit_units {n m : Nat} (hn : 55296 ≤ n ∧ n ≤ 56319)
    (hm : 56320 ≤ m ∧ m ≤ 57343) (rest : List Char) :
    readEscapedUnit ((escapeUnit n).drop 2 ++ (escapeUnit m ++ rest)) =
      some (Char.ofNat (65536 + (n - 55296) * 1024 + (m - 56320)), rest) := by
  simp only [readEscapedUnit, readUnit_escapeUnit (show n < 65536 by omega),
    bind_eq_bind, bind_some, if_pos hn, escapeUnit_append,
    readUnit_escapeUnit (show m < 65536 by omega), if_pos hm]

theorem readEscapedUnit_pair {c : Char} (hc : 65536 ≤ c.toNat) (rest : List Char) :
    readEscapedUnit ((escapeUnit (55296 + (c.toNat - 65536) / 1024)).drop 2 ++
      (escapeUnit (56320 + (c.toNat - 65536) % 1024) ++ rest)) = some (c, rest) := by
  have hvalid := toNat_not_surrogate c
  have hchar : 65536 + (55296 + (c.toNat - 65536) / 1024 - 55296) * 1024 +
      (56320 + (c.toNat - 65536) % 1024 - 56320) = c.toNat := by omega
  rw [readEscapedUnit_units ⟨by omega, by omega⟩ ⟨by omega, by omega⟩, hchar, Char.ofNat_toNat]

/-- Reading one character back. -/
theorem readChars_escapeChar (fuel : Nat) (c : Char) (rest : List Char) :
    readChars (fuel + 1) (escapeChar c ++ rest) =
      (readChars fuel rest).map fun e => (c :: e.1, e.2) := by
  have hbind : ∀ x : Char, (do
      let (xs, rest) ← readChars fuel rest
      some (x :: xs, rest)) = (readChars fuel rest).map fun e => (x :: e.1, e.2) := by
    intro x
    cases readChars fuel rest <;> rfl
  have hescape : ∀ (cs : List Char), readEscape cs = some (c, rest) →
      readChars (fuel + 1) ('\\' :: cs) = (readChars fuel rest).map fun e => (c :: e.1, e.2) := by
    intro cs hcs
    rw [← hbind]
    simp only [readChars, hcs, bind_eq_bind, bind_some]
    rfl
  rw [escapeChar]
  by_cases h₁ : c = '"'
  · rw [if_pos h₁]
    exact hescape _ (by rw [h₁]; rfl)
  rw [if_neg h₁]
  by_cases h₂ : c = '\\'
  · rw [if_pos h₂]
    exact hescape _ (by rw [h₂]; rfl)
  rw [if_neg h₂]
  by_cases h₃ : c = '\n'
  · rw [if_pos h₃]
    exact hescape _ (by rw [h₃]; rfl)
  rw [if_neg h₃]
  by_cases h₄ : c = '\r'
  · rw [if_pos h₄]
    exact hescape _ (by rw [h₄]; rfl)
  rw [if_neg h₄]
  by_cases h₅ : c = '\t'
  · rw [if_pos h₅]
    exact hescape _ (by rw [h₅]; rfl)
  rw [if_neg h₅]
  by_cases h₆ : c.toNat = 12
  · rw [if_pos h₆]
    refine hescape _ ?_
    rw [← Char.ofNat_toNat c, h₆]
    rfl
  rw [if_neg h₆]
  by_cases h₇ : c.toNat = 8
  · rw [if_pos h₇]
    refine hescape _ ?_
    rw [← Char.ofNat_toNat c, h₇]
    rfl
  rw [if_neg h₇]
  by_cases h₈ : 32 ≤ c.toNat ∧ c.toNat ≤ 126
  · rw [if_pos h₈, ← hbind, singleton_append, readChars, if_neg h₁, if_neg h₂, if_neg (by omega)]
  rw [if_neg h₈]
  by_cases h₉ : c.toNat < 65536
  · rw [if_pos h₉, escapeUnit_append]
    exact hescape _ (readEscapedUnit_basic h₉ rest)
  · rw [if_neg h₉, append_assoc, escapeUnit_append]
    exact hescape _ (readEscapedUnit_pair (by omega) rest)

theorem readChars_flatMap (cs : List Char) (rest : List Char) :
    ∀ fuel, cs.length < fuel →
      readChars fuel (cs.flatMap escapeChar ++ '"' :: rest) = some (cs, rest) := by
  induction cs with
  | nil =>
    intro fuel hfuel
    obtain ⟨fuel, rfl⟩ := Nat.exists_eq_succ_of_ne_zero (ne_of_gt hfuel)
    simp [readChars]
  | cons c cs ih =>
    intro fuel hfuel
    obtain ⟨fuel, rfl⟩ := Nat.exists_eq_succ_of_ne_zero (ne_of_gt (Nat.zero_lt_of_lt hfuel))
    rw [length_cons] at hfuel
    rw [flatMap_cons, append_assoc, Nat.succ_eq_add_one, readChars_escapeChar, ih fuel (by omega)]
    rfl

theorem length_escapeChar_pos (c : Char) : 1 ≤ (escapeChar c).length := by
  refine length_pos_of_ne_nil fun hnil => ?_
  have hread := readChars_escapeChar 0 c ['"']
  rw [hnil] at hread
  cases hread

theorem length_le_length_flatMap (cs : List Char) : cs.length ≤ (cs.flatMap escapeChar).length := by
  induction cs with
  | nil => exact le_refl _
  | cons c cs ih =>
    have := length_escapeChar_pos c
    rw [flatMap_cons, length_append, length_cons]
    omega

theorem readString_dumpsString (s : String) (rest : List Char) :
    readString (s.toList.flatMap escapeChar ++ '"' :: rest) = some (s, rest) := by
  have hlen := length_le_length_flatMap s.toList
  have hread := readChars_flatMap s.toList rest
    ((s.toList.flatMap escapeChar ++ '"' :: rest).length + 1)
    (by rw [length_append]; omega)
  simp only [readString, hread, bind_eq_bind, bind_some, String.ofList_toList]

/-! ## Numbers -/

/-- What may follow a value in a text. -/
def Stops (rest : List Char) : Prop :=
  rest = [] ∨ ∃ c cs, rest = c :: cs ∧ (c = ',' ∨ c = ']' ∨ c = '}')

theorem takeWhile_digits {digits rest : List Char} (hdigits : ∀ c ∈ digits, c.isDigit)
    (hrest : Stops rest) : (digits ++ rest).takeWhile Char.isDigit = digits ∧
      (digits ++ rest).dropWhile Char.isDigit = rest := by
  have htake : rest.takeWhile Char.isDigit = [] ∧ rest.dropWhile Char.isDigit = rest := by
    rcases hrest with rfl | ⟨c, cs, rfl, rfl | rfl | rfl⟩ <;> simp [Char.isDigit]
  rw [takeWhile_append_of_pos hdigits, dropWhile_append_of_pos hdigits, htake.1,
    htake.2, append_nil]
  exact ⟨rfl, rfl⟩

theorem toDigits_head_ne_zero {n : Nat} (hn : 0 < n) (cs : List Char) :
    Nat.toDigits 10 n ≠ '0' :: cs := by
  induction n using Nat.strong_induction_on generalizing cs with
  | _ n ih =>
    rcases lt_or_ge n 10 with hlt | hge
    · rw [Nat.toDigits_of_lt_base hlt]
      intro heq
      have : n.digitChar = '0' := (List.cons.inj heq).1
      rw [Nat.digitChar_eq_zero] at this
      omega
    · rw [Nat.toDigits_of_base_le (by decide) hge]
      cases hdigits : Nat.toDigits 10 (n / 10) with
      | nil => exact absurd hdigits Nat.toDigits_ne_nil
      | cons d ds =>
        intro heq
        have hd : d = '0' := (List.cons.inj heq).1
        exact ih (n / 10) (by omega) (by omega) ds (by rw [hdigits, hd])

variable {rest : List Char}

theorem readDigits_toDigits (n : Nat) (hrest : Stops rest) :
    readDigits (Nat.toDigits 10 n ++ rest) = some (Nat.toDigits 10 n, rest) := by
  rcases Nat.eq_zero_or_pos n with rfl | hn
  · rfl
  · have hdigits : ∀ c ∈ Nat.toDigits 10 n, c.isDigit := fun c hc =>
      Nat.isDigit_of_mem_toDigits (by decide) (by decide) hc
    obtain ⟨htake, hdrop⟩ := takeWhile_digits hdigits hrest
    unfold readDigits
    split
    · rename_i tail heq
      cases hcs : Nat.toDigits 10 n with
      | nil => exact absurd hcs Nat.toDigits_ne_nil
      | cons d ds =>
        rw [hcs] at heq
        have hd : d = '0' := (List.cons.inj heq).1
        exact absurd (hd ▸ hcs) (toDigits_head_ne_zero hn ds)
    · simp only [htake, hdrop, if_neg Nat.toDigits_ne_nil]

theorem readFraction_of_stops (hrest : Stops rest) : readFraction rest = ([], rest) := by
  rcases hrest with rfl | ⟨c, cs, rfl, rfl | rfl | rfl⟩ <;> rfl

theorem readExponent_of_stops (hrest : Stops rest) : readExponent rest = ([], rest) := by
  rcases hrest with rfl | ⟨c, cs, rfl, rfl | rfl | rfl⟩ <;> rfl

/-- Reading an integer back. -/
theorem readNumber_dumpsInt (n : Int) (hrest : Stops rest) :
    readNumber (dumpsInt n ++ rest) = some (.int n, rest) := by
  cases n with
  | ofNat n =>
    have hhead : (dumpsInt (.ofNat n) ++ rest).head? ≠ some '-' := by
      rw [dumpsInt]
      cases hcs : Nat.toDigits 10 n with
      | nil => exact absurd hcs Nat.toDigits_ne_nil
      | cons d ds =>
        have hd : d.isDigit :=
          Nat.isDigit_of_mem_toDigits (b := 10) (n := n) (by decide) (by decide)
            (by rw [hcs]; exact mem_cons_self)
        intro heq
        have : d = '-' := some.inj heq
        rw [this] at hd
        exact absurd hd (by decide)
    simp only [readNumber, if_neg hhead]
    rw [dumpsInt, readDigits_toDigits n hrest]
    simp only [bind_eq_bind, bind_some, readFraction_of_stops hrest,
      readExponent_of_stops hrest, and_self, if_true, Nat.ofDigitChars_ten_toDigits]
    rfl
  | negSucc n =>
    have hhead : (dumpsInt (.negSucc n) ++ rest).head? = some '-' := rfl
    have htail : (dumpsInt (.negSucc n) ++ rest).tail = Nat.toDigits 10 (n + 1) ++ rest := rfl
    simp only [readNumber, if_pos hhead, htail, readDigits_toDigits (n + 1) hrest,
      bind_eq_bind, bind_some, readFraction_of_stops hrest,
      readExponent_of_stops hrest, and_self, if_true, Nat.ofDigitChars_ten_toDigits]
    rfl

/-! ## Values -/

mutual

/-- A value without floats. -/
def Json.FloatFree : Json → Prop
  | .float _ => False
  | .arr items => FloatFreeItems items
  | .obj members => FloatFreeMembers members
  | _ => True

/-- Items without floats. -/
def FloatFreeItems : List Json → Prop
  | [] => True
  | v :: rest => v.FloatFree ∧ FloatFreeItems rest

/-- Members without floats. -/
def FloatFreeMembers : List (String × Json) → Prop
  | [] => True
  | (_, v) :: rest => v.FloatFree ∧ FloatFreeMembers rest

end

theorem floatFreeItems_iff {items : List Json} :
    FloatFreeItems items ↔ ∀ v ∈ items, v.FloatFree := by
  induction items with
  | nil => simp [FloatFreeItems]
  | cons v items ih => simp [FloatFreeItems, ih]

variable {v : Json}

/-- An encoded value starts with a character that is neither whitespace nor a bracket. -/
theorem dumps_head (hv : v.FloatFree) (sep : Separators) :
    ∃ c cs, dumps sep v = c :: cs ∧ (∀ t, skip (c :: t) = c :: t) ∧ c ≠ ']' := by
  have hskip : ∀ c : Char, c ≠ ' ' → c ≠ '\t' → c ≠ '\n' → c ≠ '\r' →
      ∀ t, skip (c :: t) = c :: t := by
    intro c h₁ h₂ h₃ h₄ t
    rw [skip, if_neg]
    simp [h₁, h₂, h₃, h₄]
  have hdigits : ∀ n, ∃ c cs, Nat.toDigits 10 n = c :: cs ∧ (∀ t, skip (c :: t) = c :: t) ∧
      c ≠ ']' := by
    intro n
    cases hcs : Nat.toDigits 10 n with
    | nil => exact absurd hcs Nat.toDigits_ne_nil
    | cons d ds =>
      have hd : d.isDigit :=
        Nat.isDigit_of_mem_toDigits (b := 10) (n := n) (by decide) (by decide)
          (by rw [hcs]; exact mem_cons_self)
      have hne : ∀ x : Char, x.isDigit = false → d ≠ x := by
        rintro x hx rfl
        rw [hx] at hd
        exact absurd hd (by decide)
      exact ⟨d, ds, rfl, hskip d (hne _ (by decide)) (hne _ (by decide)) (hne _ (by decide))
        (hne _ (by decide)), hne _ (by decide)⟩
  have hchar : ∀ (c : Char) (cs : List Char), c ≠ ' ' → c ≠ '\t' → c ≠ '\n' → c ≠ '\r' →
      c ≠ ']' → ∃ c' cs', c :: cs = c' :: cs' ∧ (∀ t, skip (c' :: t) = c' :: t) ∧ c' ≠ ']' :=
    fun c cs h₁ h₂ h₃ h₄ h₅ => ⟨c, cs, rfl, hskip c h₁ h₂ h₃ h₄, h₅⟩
  cases v with
  | null => exact hchar 'n' _ (by decide) (by decide) (by decide) (by decide) (by decide)
  | bool b =>
    cases b with
    | true => exact hchar 't' _ (by decide) (by decide) (by decide) (by decide) (by decide)
    | false => exact hchar 'f' _ (by decide) (by decide) (by decide) (by decide) (by decide)
  | int n =>
    cases n with
    | ofNat n => exact hdigits n
    | negSucc n => exact hchar '-' _ (by decide) (by decide) (by decide) (by decide) (by decide)
  | float literal => exact absurd hv id
  | str s => exact hchar '"' _ (by decide) (by decide) (by decide) (by decide) (by decide)
  | arr items => exact hchar '[' _ (by decide) (by decide) (by decide) (by decide) (by decide)
  | obj members => exact hchar '{' _ (by decide) (by decide) (by decide) (by decide) (by decide)

theorem length_dumps_pos (hv : v.FloatFree) (sep : Separators) : 1 ≤ (dumps sep v).length := by
  obtain ⟨c, cs, hdumps, -, -⟩ := dumps_head hv sep
  rw [hdumps, length_cons]
  omega

theorem dumpsMoreItems_cons (sep : Separators) (v : Json) (rest : List Json) :
    dumpsMoreItems sep (v :: rest) = sep.item.toList ++ dumpsItems sep (v :: rest) := by
  simp only [dumpsMoreItems, dumpsItems, append_assoc]

theorem dumpsMoreMembers_cons (sep : Separators) (e : String × Json) (rest : List (String × Json)) :
    dumpsMoreMembers sep (e :: rest) = sep.item.toList ++ dumpsMembers sep (e :: rest) := by
  simp only [dumpsMoreMembers, dumpsMembers, append_assoc]

theorem readValue_int (fuel : Nat) (n : Int) (hrest : Stops rest) :
    readValue (fuel + 1) (dumpsInt n ++ rest) = some (.int n, rest) := by
  have hnumber := readNumber_dumpsInt n hrest
  obtain ⟨c, cs, hdumps, hc⟩ : ∃ c cs, dumpsInt n = c :: cs ∧ (c.isDigit ∨ c = '-') := by
    cases n with
    | ofNat n =>
      cases hcs : Nat.toDigits 10 n with
      | nil => exact absurd hcs Nat.toDigits_ne_nil
      | cons d ds =>
        exact ⟨d, ds, hcs, .inl (Nat.isDigit_of_mem_toDigits (b := 10) (n := n) (by decide)
          (by decide) (by rw [hcs]; exact mem_cons_self))⟩
    | negSucc n => exact ⟨'-', _, rfl, .inr rfl⟩
  have hne : ∀ x : Char, x.isDigit = false → x ≠ '-' → c ≠ x := by
    rintro x hx hminus rfl
    rcases hc with hc | hc
    · rw [hx] at hc
      exact absurd hc (by decide)
    · exact hminus hc
  rw [hdumps, cons_append] at hnumber ⊢
  rw [readValue, if_neg (hne _ (by decide) (by decide)), if_neg (hne _ (by decide) (by decide)),
    if_neg (hne _ (by decide) (by decide)), if_neg (hne _ (by decide) (by decide)),
    if_neg (hne _ (by decide) (by decide)), if_neg (hne _ (by decide) (by decide)), hnumber]

theorem skip_dumpsItems (hv : v.FloatFree) (items : List Json) (rest : List Char) :
    (∀ t, skip (' ' :: (dumpsItems .spaced (v :: items) ++ t)) =
      dumpsItems .spaced (v :: items) ++ t) ∧
    ∃ c cs, dumpsItems .spaced (v :: items) ++ rest = c :: cs ∧ skip (c :: cs) = c :: cs ∧
      c ≠ ']' := by
  obtain ⟨c, cs, hdumps, hskip, hc⟩ := dumps_head hv .spaced
  refine ⟨fun t => ?_, c, _, by rw [dumpsItems, hdumps]; rfl, hskip _, hc⟩
  rw [skip, if_pos (.inl rfl), dumpsItems, hdumps]
  exact hskip _

mutual

theorem readValue_dumps : ∀ (v : Json) (fuel : Nat) (rest : List Char), v.FloatFree →
    (dumps .spaced v).length ≤ fuel → Stops rest →
    readValue fuel (dumps .spaced v ++ rest) = some (v, rest)
  | v, 0, rest, hv, hlen, _ => by
    have := length_dumps_pos hv .spaced
    omega
  | .null, fuel + 1, rest, _, _, _ => by rfl
  | .bool true, fuel + 1, rest, _, _, _ => by rfl
  | .bool false, fuel + 1, rest, _, _, _ => by rfl
  | .int n, fuel + 1, rest, _, _, hrest => readValue_int fuel n hrest
  | .float _, _ + 1, _, hv, _, _ => absurd hv id
  | .str s, fuel + 1, rest, _, _, _ => by
    rw [dumps, dumpsString, cons_append, append_assoc, readValue, if_pos rfl,
      singleton_append, readString_dumpsString]
    rfl
  | .arr [], fuel + 1, rest, _, _, _ => by rfl
  | .arr (v :: items), fuel + 1, rest, hv, hlen, _ => by
    have hitems : FloatFreeItems (v :: items) := hv
    rw [dumps, length_cons, length_append, length_singleton] at hlen
    have hread := readItems_dumps (v :: items) fuel rest (by simp) hitems (by omega)
    obtain ⟨-, c, cs, hcs, hskip, hc⟩ := skip_dumpsItems hitems.1 items (']' :: rest)
    rw [dumps, cons_append, append_assoc, singleton_append, readValue,
      if_neg (by decide), if_pos rfl]
    rw [hcs] at hread ⊢
    rw [hskip]
    split
    · rename_i heq
      exact absurd (List.cons.inj heq).1 hc
    · rw [hread]
      rfl
  | .obj [], fuel + 1, rest, _, _, _ => by rfl
  | .obj ((k, v) :: members), fuel + 1, rest, hv, hlen, _ => by
    rw [dumps, length_cons, length_append, length_singleton] at hlen
    have hread := readMembers_dumps ((k, v) :: members) fuel rest (by simp) hv (by omega)
    rw [dumps, cons_append, append_assoc, singleton_append, readValue,
      if_neg (by decide), if_neg (by decide), if_pos rfl]
    obtain ⟨cs, hcs⟩ : ∃ cs, dumpsMembers .spaced ((k, v) :: members) ++ '}' :: rest =
        '"' :: cs := by
      simp only [dumpsMembers, dumpsString, cons_append]
      exact ⟨_, rfl⟩
    rw [hcs] at hread ⊢
    have hskip : skip ('"' :: cs) = '"' :: cs := rfl
    rw [hskip]
    split
    · rename_i heq
      exact absurd (List.cons.inj heq).1 (by decide)
    · rw [hread]
      rfl

theorem readItems_dumps : ∀ (items : List Json) (fuel : Nat) (rest : List Char), items ≠ [] →
    FloatFreeItems items → (dumpsItems .spaced items).length < fuel →
    readItems fuel (dumpsItems .spaced items ++ ']' :: rest) = some (items, rest)
  | [], _, _, hne, _, _ => absurd rfl hne
  | _ :: _, 0, _, _, _, hlen => absurd hlen (Nat.not_lt_zero _)
  | [v], fuel + 1, rest, _, hv, hlen => by
    have hitems : dumpsItems .spaced [v] = dumps .spaced v := by
      simp only [dumpsItems, dumpsMoreItems, append_nil]
    rw [hitems] at hlen ⊢
    rw [readItems, readValue_dumps v fuel (']' :: rest) hv.1 (by omega)
      (.inr ⟨_, _, rfl, .inr (.inl rfl)⟩)]
    rfl
  | v :: w :: items, fuel + 1, rest, _, hv, hlen => by
    have hitems : dumpsItems .spaced (v :: w :: items) =
        dumps .spaced v ++ (',' :: ' ' :: dumpsItems .spaced (w :: items)) := by
      rw [dumpsItems, dumpsMoreItems_cons]
      rfl
    have hpos := length_dumps_pos hv.1 .spaced
    rw [hitems, length_append, length_cons, length_cons] at hlen
    have hread := readItems_dumps (w :: items) fuel rest (by simp) hv.2 (by omega)
    have hskip := (skip_dumpsItems hv.2.1 items []).1 (']' :: rest)
    have hcomma : ∀ t, skip (',' :: t) = ',' :: t := fun t => rfl
    rw [hitems, append_assoc, cons_append, cons_append, readItems,
      readValue_dumps v fuel _ hv.1 (by omega) (.inr ⟨_, _, rfl, .inl rfl⟩)]
    simp only [bind_eq_bind, bind_some, hcomma, hskip, hread]

theorem readMembers_dumps : ∀ (members : List (String × Json)) (fuel : Nat) (rest : List Char),
    members ≠ [] → FloatFreeMembers members → (dumpsMembers .spaced members).length < fuel →
    readMembers fuel (dumpsMembers .spaced members ++ '}' :: rest) = some (members, rest)
  | [], _, _, hne, _, _ => absurd rfl hne
  | _ :: _, 0, _, _, _, hlen => absurd hlen (Nat.not_lt_zero _)
  | (k, v) :: members, fuel + 1, rest, _, hv, hlen => by
    obtain ⟨c, cs, hdumps, hskip, -⟩ := dumps_head hv.1 .spaced
    have hvalue : ∀ t, skip (' ' :: (dumps .spaced v ++ t)) = dumps .spaced v ++ t := by
      intro t
      rw [skip, if_pos (.inl rfl), hdumps]
      exact hskip _
    have hmembers : dumpsMembers .spaced ((k, v) :: members) = '"' ::
        (k.toList.flatMap escapeChar ++ ('"' :: ':' :: ' ' ::
          (dumps .spaced v ++ dumpsMoreMembers .spaced members))) := by
      simp only [dumpsMembers, dumpsString, cons_append, append_assoc, nil_append]
      rfl
    rw [hmembers, length_cons, length_append, length_cons, length_cons,
      length_cons, length_append] at hlen
    rw [hmembers, cons_append, append_assoc, readMembers]
    simp only [cons_append, readString_dumpsString, bind_eq_bind, bind_some]
    have hcolon : ∀ t, skip (':' :: t) = ':' :: t := fun t => rfl
    simp only [hcolon, append_assoc, hvalue]
    match members, hv, hlen with
    | [], hv, hlen =>
      rw [dumpsMoreMembers, nil_append, readValue_dumps v fuel _ hv.1 (by omega)
        (.inr ⟨_, _, rfl, .inr (.inr rfl)⟩)]
      rfl
    | (k', v') :: members, hv, hlen =>
      have hmore : dumpsMoreMembers .spaced ((k', v') :: members) =
          ',' :: ' ' :: dumpsMembers .spaced ((k', v') :: members) := by
        rw [dumpsMoreMembers_cons]
        rfl
      rw [hmore, length_cons, length_cons] at hlen
      have hread := readMembers_dumps ((k', v') :: members) fuel rest (by simp) hv.2 (by omega)
      rw [hmore, cons_append, cons_append,
        readValue_dumps v fuel _ hv.1 (by omega) (.inr ⟨_, _, rfl, .inl rfl⟩)]
      have hcomma : ∀ t, skip (',' :: t) = ',' :: t := fun t => rfl
      have hquote : skip (' ' :: (dumpsMembers .spaced ((k', v') :: members) ++ '}' :: rest)) =
          dumpsMembers .spaced ((k', v') :: members) ++ '}' :: rest := by
        simp only [dumpsMembers, dumpsString, cons_append]
        rfl
      simp only [bind_some, hcomma, hquote, hread]

end

/-- Decoding an encoded value gives the value back. -/
theorem loads_dumps (hv : v.FloatFree) : loads (dumps .spaced v) = some v := by
  obtain ⟨c, cs, hdumps, hskip, -⟩ := dumps_head hv .spaced
  have hstart : skip (dumps .spaced v) = dumps .spaced v := by
    rw [hdumps]
    exact hskip _
  have hread := readValue_dumps v ((dumps .spaced v).length + 1) [] hv (by omega) (.inl rfl)
  rw [append_nil] at hread
  simp only [loads, hstart, hread, bind_eq_bind, bind_some, skip, if_true]

/-! ## Lengths -/

theorem length_compact_item : Separators.compact.item.toList.length = 1 := by decide

theorem length_compact_key : Separators.compact.key.toList.length = 1 := by decide

theorem length_dumpsString_append (s t : String) :
    (dumpsString (s ++ t)).length + 2 = (dumpsString s).length + (dumpsString t).length := by
  simp only [dumpsString, String.toList_append, flatMap_append, length_cons,
    length_append, length_nil]
  omega

theorem length_dumpsMoreItems (items : List Json) :
    (dumpsMoreItems .compact items).length =
      (items.map fun v => (dumps .compact v).length + 1).sum := by
  induction items with
  | nil => rfl
  | cons v items ih =>
    simp only [dumpsMoreItems, length_append, ih, map_cons, sum_cons, length_compact_item]
    omega

theorem length_dumps_arr {items : List Json} (hitems : items ≠ []) :
    (dumps .compact (.arr items)).length =
      1 + (items.map fun v => (dumps .compact v).length + 1).sum := by
  obtain ⟨v, rest, rfl⟩ := exists_cons_of_ne_nil hitems
  simp only [dumps, dumpsItems, length_cons, length_append, length_dumpsMoreItems,
    map_cons, sum_cons, length_nil]
  omega

/-- Length of a member with the comma in front of it. -/
def memberLength (e : String × Json) : Nat :=
  (dumpsString e.1).length + (dumps .compact e.2).length + 2

theorem length_dumpsMoreMembers (members : List (String × Json)) :
    (dumpsMoreMembers .compact members).length = (members.map memberLength).sum := by
  induction members with
  | nil => rfl
  | cons e members ih =>
    simp only [dumpsMoreMembers, length_append, ih, map_cons, sum_cons, memberLength,
      length_compact_item, length_compact_key]
    omega

theorem length_dumps_obj {members : List (String × Json)} (hmembers : members ≠ []) :
    (dumps .compact (.obj members)).length = 1 + (members.map memberLength).sum := by
  obtain ⟨e, rest, rfl⟩ := exists_cons_of_ne_nil hmembers
  simp only [dumps, dumpsMembers, length_cons, length_append, length_dumpsMoreMembers,
    map_cons, sum_cons, length_nil, memberLength, length_compact_key]
  omega

end PyJson
