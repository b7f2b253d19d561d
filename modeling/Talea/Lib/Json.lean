import Talea.Lib.Decimal

/-!
# JSON texts

Values without fractions, their compact text, and a reader.  The reader takes
any spacing and every escape of the format; it refuses numbers that are no
integers.  A value is read back from its text, whatever follows it that cannot
continue a number, so texts of distinct values differ.
-/

namespace Talea

inductive Json
  | null
  | bool (value : Bool)
  | int (value : ℤ)
  | str (text : String)
  | arr (items : List Json)
  | obj (members : List (String × Json))

namespace Json

/-! ## Printing -/

/-- A character as it stands in a string: the two that end or escape it and
the control characters are escaped, by their short names where they have one. -/
def escape (c : Char) : List Char :=
  if c = '"' then ['\\', '"']
  else if c = '\\' then ['\\', '\\']
  else if c = '\n' then ['\\', 'n']
  else if c = '\r' then ['\\', 'r']
  else if c = '\t' then ['\\', 't']
  else if c = '\x08' then ['\\', 'b']
  else if c = '\x0c' then ['\\', 'f']
  else if c.toNat < 32 then
    ['\\', 'u', '0', '0', Nat.digitChar (c.toNat / 16), Nat.digitChar (c.toNat % 16)]
  else [c]

def quoted (text : String) : List Char :=
  '"' :: (text.toList.flatMap escape ++ ['"'])

def intText (value : ℤ) : List Char :=
  (if value < 0 then ['-'] else []) ++ Nat.toDigits 10 value.natAbs

mutual

/-- The text of a value, without spaces. -/
def print : Json → List Char
  | null => ['n', 'u', 'l', 'l']
  | bool true => ['t', 'r', 'u', 'e']
  | bool false => ['f', 'a', 'l', 's', 'e']
  | int value => intText value
  | str text => quoted text
  | arr items => '[' :: printItems items
  | obj members => '{' :: printMembers members

def printItems : List Json → List Char
  | [] => [']']
  | item :: items => print item ++ printMoreItems items

def printMoreItems : List Json → List Char
  | [] => [']']
  | item :: items => ',' :: (print item ++ printMoreItems items)

def printMembers : List (String × Json) → List Char
  | [] => ['}']
  | (name, value) :: members => quoted name ++ ':' :: (print value ++ printMoreMembers members)

def printMoreMembers : List (String × Json) → List Char
  | [] => ['}']
  | (name, value) :: members =>
      ',' :: (quoted name ++ ':' :: (print value ++ printMoreMembers members))

end

def text (value : Json) : String :=
  String.ofList value.print

/-! ## Reading -/

def isSpace (c : Char) : Bool :=
  c = ' ' || c = '\n' || c = '\t' || c = '\r'

def skip (text : List Char) : List Char :=
  text.dropWhile isSpace

def hexValue (c : Char) : Option ℕ :=
  if c.isDigit then some (c.toNat - 48)
  else if 'a' ≤ c ∧ c ≤ 'f' then some (c.toNat - 87)
  else if 'A' ≤ c ∧ c ≤ 'F' then some (c.toNat - 55)
  else none

/-- The number that four hexadecimal digits write. -/
def hexFour : List Char → Option (ℕ × List Char)
  | first :: second :: third :: fourth :: rest => do
      let first ← hexValue first
      let second ← hexValue second
      let third ← hexValue third
      let fourth ← hexValue fourth
      some (((first * 16 + second) * 16 + third) * 16 + fourth, rest)
  | _ => none

/-- The second half of a character beyond the first 65536. -/
def lowHalf (high : ℕ) : List Char → Option (Char × List Char)
  | '\\' :: 'u' :: rest => do
      let (low, rest) ← hexFour rest
      if 0xDC00 ≤ low ∧ low < 0xE000 then
        some (Char.ofNat (0x10000 + (high - 0xD800) * 1024 + (low - 0xDC00)), rest)
      else none
  | _ => none

/-- The character behind a backslash. -/
def unescape : List Char → Option (Char × List Char)
  | [] => none
  | c :: rest =>
      if c = '"' ∨ c = '\\' ∨ c = '/' then some (c, rest)
      else if c = 'b' then some ('\x08', rest)
      else if c = 'f' then some ('\x0c', rest)
      else if c = 'n' then some ('\n', rest)
      else if c = 'r' then some ('\r', rest)
      else if c = 't' then some ('\t', rest)
      else if c = 'u' then do
        let (code, rest) ← hexFour rest
        if 0xD800 ≤ code ∧ code < 0xDC00 then lowHalf code rest
        else if 0xDC00 ≤ code ∧ code < 0xE000 then none
        else some (Char.ofNat code, rest)
      else none

/-- The characters of a string, behind its opening quote. -/
def parseText : ℕ → List Char → Option (List Char × List Char)
  | 0, _ => none
  | _ + 1, [] => none
  | fuel + 1, c :: rest =>
      if c = '"' then some ([], rest)
      else if c = '\\' then do
        let (c, rest) ← unescape rest
        let (cs, rest) ← parseText fuel rest
        some (c :: cs, rest)
      else if c.toNat < 32 then none
      else do
        let (cs, rest) ← parseText fuel rest
        some (c :: cs, rest)

def parseString (rest : List Char) : Option (String × List Char) :=
  (parseText (rest.length + 1) rest).map fun (cs, rest) => (String.ofList cs, rest)

/-- What cannot follow an integer: it would go on, or be a fraction. -/
def continuesNumber (c : Char) : Bool :=
  c.isDigit || c = '.' || c = 'e' || c = 'E'

/-- A numeral without a superfluous zero in front. -/
def parseNat (text : List Char) : Option (ℕ × List Char) :=
  let numeral := text.takeWhile Char.isDigit
  let rest := text.dropWhile Char.isDigit
  if numeral = [] ∨ numeral.head? = some '0' ∧ numeral ≠ ['0'] ∨ rest.head?.any continuesNumber then
    none
  else some (Decimal.digitsValue numeral, rest)

/-- An integer; `-0` is not one. -/
def parseInt : List Char → Option (Json × List Char)
  | [] => none
  | c :: rest =>
      if c = '-' then
        (parseNat rest).bind fun (number, rest) =>
          if number = 0 then none else some (int (-number), rest)
      else (parseNat (c :: rest)).map fun (number, rest) => (int number, rest)

/-- One of the three words. -/
def parseWord (word : List Char) (value : Json) (text : List Char) : Option (Json × List Char) :=
  if word.isPrefixOf text then some (value, text.drop word.length) else none

/-- The sign between two parts. -/
def parseSign (sign : Char) (text : List Char) : Option (List Char) :=
  match skip text with
  | [] => none
  | c :: rest => if c = sign then some rest else none

mutual

/-- A value at the start of a text, and what follows it. -/
def parseValue : ℕ → List Char → Option (Json × List Char)
  | 0, _ => none
  | fuel + 1, text =>
      match skip text with
      | [] => none
      | c :: rest =>
          if c = '"' then (parseString rest).map fun (text, rest) => (str text, rest)
          else if c = '[' then (parseItems fuel rest).map fun (items, rest) => (arr items, rest)
          else if c = '{' then
            (parseMembers fuel rest).map fun (members, rest) => (obj members, rest)
          else if c = 'n' then parseWord ['u', 'l', 'l'] null rest
          else if c = 't' then parseWord ['r', 'u', 'e'] (bool true) rest
          else if c = 'f' then parseWord ['a', 'l', 's', 'e'] (bool false) rest
          else parseInt (c :: rest)

def parseItems : ℕ → List Char → Option (List Json × List Char)
  | 0, _ => none
  | fuel + 1, text =>
      match parseSign ']' text with
      | some rest => some ([], rest)
      | none => do
          let (item, rest) ← parseValue fuel text
          let (items, rest) ← parseMoreItems fuel rest
          some (item :: items, rest)

def parseMoreItems : ℕ → List Char → Option (List Json × List Char)
  | 0, _ => none
  | fuel + 1, text =>
      match parseSign ']' text with
      | some rest => some ([], rest)
      | none => do
          let rest ← parseSign ',' text
          let (item, rest) ← parseValue fuel rest
          let (items, rest) ← parseMoreItems fuel rest
          some (item :: items, rest)

def parseMembers : ℕ → List Char → Option (List (String × Json) × List Char)
  | 0, _ => none
  | fuel + 1, text =>
      match parseSign '}' text with
      | some rest => some ([], rest)
      | none => do
          let rest ← parseSign '"' text
          let (name, rest) ← parseString rest
          let rest ← parseSign ':' rest
          let (value, rest) ← parseValue fuel rest
          let (members, rest) ← parseMoreMembers fuel rest
          some ((name, value) :: members, rest)

def parseMoreMembers : ℕ → List Char → Option (List (String × Json) × List Char)
  | 0, _ => none
  | fuel + 1, text =>
      match parseSign '}' text with
      | some rest => some ([], rest)
      | none => do
          let rest ← parseSign ',' text
          let rest ← parseSign '"' rest
          let (name, rest) ← parseString rest
          let rest ← parseSign ':' rest
          let (value, rest) ← parseValue fuel rest
          let (members, rest) ← parseMoreMembers fuel rest
          some ((name, value) :: members, rest)

end

/-- The value of a whole text. -/
def parse (text : String) : Option Json :=
  (parseValue (2 * text.toList.length + 1) text.toList).bind fun (value, rest) =>
    if skip rest = [] then some value else none

/-! ## Reading what is printed -/

theorem skip_cons {c : Char} (hspace : isSpace c = false) (rest : List Char) :
    skip (c :: rest) = c :: rest := by
  unfold skip
  rw [List.dropWhile_cons_of_neg (by rw [hspace]; exact Bool.false_ne_true)]

theorem parseSign_cons {c : Char} (hspace : isSpace c = false) (sign : Char) (rest : List Char) :
    parseSign sign (c :: rest) = if c = sign then some rest else none := by
  unfold parseSign
  rw [skip_cons hspace]

theorem hexValue_digitChar (digit : ℕ) (hdigit : digit < 16) :
    hexValue (Nat.digitChar digit) = some digit := by
  have hall : ∀ digit < 16, hexValue (Nat.digitChar digit) = some digit := by decide
  exact hall digit hdigit

/-- A control character is read back from its number. -/
theorem unescape_control {c : Char} (hcontrol : c.toNat < 32) (rest : List Char) :
    unescape ('u' :: '0' :: '0' :: Nat.digitChar (c.toNat / 16) ::
      Nat.digitChar (c.toNat % 16) :: rest) = some (c, rest) := by
  have hzero : hexValue '0' = some 0 := by decide
  have hcode : c.toNat / 16 * 16 + c.toNat % 16 = c.toNat := by omega
  have hhigh := hexValue_digitChar (c.toNat / 16) (by omega)
  have hlow := hexValue_digitChar (c.toNat % 16) (by omega)
  have hfour : hexFour ('0' :: '0' :: Nat.digitChar (c.toNat / 16) ::
      Nat.digitChar (c.toNat % 16) :: rest) = some (c.toNat, rest) := by
    simp [hexFour, hzero, hhigh, hlow, hcode]
  have hsmall : ¬ 0xD800 ≤ c.toNat := by omega
  have hsmaller : ¬ 0xDC00 ≤ c.toNat := by omega
  simp [unescape, hfour, hsmall, hsmaller, Char.ofNat_toNat]

theorem parseText_backslash {c : Char} {more rest : List Char}
    (hescape : unescape more = some (c, rest)) (fuel : ℕ) :
    parseText (fuel + 1) ('\\' :: more) =
      (parseText fuel rest).map fun (cs, rest) => (c :: cs, rest) := by
  rw [parseText, if_neg (by decide), if_pos rfl, hescape]
  cases hrest : parseText fuel rest <;> simp [hrest]

theorem parseText_escape (c : Char) (fuel : ℕ) (rest : List Char) :
    parseText (fuel + 1) (escape c ++ rest) =
      (parseText fuel rest).map fun (cs, rest) => (c :: cs, rest) := by
  unfold escape
  split_ifs with hquote hslash hline hreturn htab hback hfeed hcontrol
  · exact parseText_backslash (by rw [hquote]; rfl) fuel
  · exact parseText_backslash (by rw [hslash]; rfl) fuel
  · exact parseText_backslash (by rw [hline]; rfl) fuel
  · exact parseText_backslash (by rw [hreturn]; rfl) fuel
  · exact parseText_backslash (by rw [htab]; rfl) fuel
  · exact parseText_backslash (by rw [hback]; rfl) fuel
  · exact parseText_backslash (by rw [hfeed]; rfl) fuel
  · exact parseText_backslash (unescape_control hcontrol rest) fuel
  · simp only [List.cons_append, List.nil_append, parseText, if_neg hquote, if_neg hslash,
      if_neg hcontrol]
    cases parseText fuel rest <;> rfl

theorem escape_ne_nil (c : Char) : escape c ≠ [] := by
  unfold escape
  split_ifs <;> exact List.cons_ne_nil _ _

theorem length_le_flatMap_escape (text : List Char) :
    text.length ≤ (text.flatMap escape).length := by
  induction text with
  | nil => exact le_rfl
  | cons c text ih =>
      have hpos := List.length_pos_of_ne_nil (escape_ne_nil c)
      rw [List.flatMap_cons, List.length_append, List.length_cons]
      omega

theorem parseText_flatMap (text : List Char) {fuel : ℕ} (hfuel : text.length < fuel)
    (rest : List Char) :
    parseText fuel (text.flatMap escape ++ '"' :: rest) = some (text, rest) := by
  induction text generalizing fuel with
  | nil =>
      obtain ⟨fuel, rfl⟩ := Nat.exists_eq_succ_of_ne_zero (Nat.ne_of_gt hfuel)
      rfl
  | cons c text ih =>
      obtain ⟨fuel, rfl⟩ := Nat.exists_eq_succ_of_ne_zero (Nat.ne_of_gt (Nat.zero_lt_of_lt hfuel))
      rw [List.flatMap_cons, List.append_assoc, parseText_escape,
        ih (Nat.lt_of_succ_lt_succ hfuel)]
      rfl

theorem parseString_flatMap (text : String) (rest : List Char) :
    parseString (text.toList.flatMap escape ++ '"' :: rest) = some (text, rest) := by
  unfold parseString
  rw [parseText_flatMap]
  · simp only [Option.map_some, String.ofList_toList]
  · have hlength := length_le_flatMap_escape text.toList
    rw [List.length_append]
    omega

theorem quoted_append (text : String) (rest : List Char) :
    quoted text ++ rest = '"' :: (text.toList.flatMap escape ++ '"' :: rest) := by
  unfold quoted
  rw [List.cons_append, List.append_assoc]
  rfl

/-- What follows a value does not continue a number. -/
def Closed (rest : List Char) : Prop :=
  rest.head?.any continuesNumber = false

theorem Closed.nil : Closed [] := rfl

theorem Closed.cons {c : Char} (hc : continuesNumber c = false) (rest : List Char) :
    Closed (c :: rest) := hc

theorem Closed.head_isDigit {c : Char} {rest : List Char} (hclosed : Closed (c :: rest)) :
    c.isDigit = false := by
  have hc : continuesNumber c = false := hclosed
  unfold continuesNumber at hc
  simp only [Bool.or_eq_false_iff] at hc
  exact hc.1.1.1

theorem parseNat_toDigits (number : ℕ) {rest : List Char} (hclosed : Closed rest) :
    parseNat (Nat.toDigits 10 number ++ rest) = some (number, rest) := by
  have hdigits := Decimal.digits_toDigits number
  have hrest : rest.takeWhile Char.isDigit = [] ∧ rest.dropWhile Char.isDigit = rest := by
    cases rest with
    | nil => exact ⟨rfl, rfl⟩
    | cons c rest =>
        have hc : ¬ c.isDigit = true := by rw [hclosed.head_isDigit]; exact Bool.false_ne_true
        exact ⟨List.takeWhile_cons_of_neg hc, List.dropWhile_cons_of_neg hc⟩
  have htake : (Nat.toDigits 10 number ++ rest).takeWhile Char.isDigit = Nat.toDigits 10 number := by
    rw [List.takeWhile_append_of_pos hdigits, hrest.1, List.append_nil]
  have hdrop : (Nat.toDigits 10 number ++ rest).dropWhile Char.isDigit = rest := by
    rw [List.dropWhile_append_of_pos hdigits, hrest.2]
  have hnot : ¬ (Nat.toDigits 10 number = [] ∨ (Nat.toDigits 10 number).head? = some '0' ∧
      Nat.toDigits 10 number ≠ ['0'] ∨ rest.head?.any continuesNumber = true) := by
    rintro (hnil | ⟨hhead, hmore⟩ | hgoes)
    · exact Nat.toDigits_ne_nil hnil
    · exact hmore (Decimal.head?_toDigits hhead)
    · rw [show rest.head?.any continuesNumber = false from hclosed] at hgoes
      cases hgoes
  unfold parseNat
  rw [htake, hdrop, if_neg hnot, Decimal.digitsValue_toDigits]

theorem exists_toDigits (number : ℕ) :
    ∃ c digits, Nat.toDigits 10 number = c :: digits ∧ c.isDigit = true := by
  obtain ⟨c, digits, hcons⟩ := List.exists_cons_of_ne_nil (Nat.toDigits_ne_nil (n := number) (b := 10))
  refine ⟨c, digits, hcons, Decimal.digits_toDigits number c ?_⟩
  rw [hcons]
  exact List.mem_cons_self

theorem parseInt_intText (value : ℤ) {rest : List Char} (hclosed : Closed rest) :
    parseInt (intText value ++ rest) = some (int value, rest) := by
  unfold intText
  split_ifs with hneg
  · rw [List.append_assoc]
    simp only [List.cons_append, List.nil_append, parseInt, if_true]
    have habs : -(value.natAbs : ℤ) = value := by omega
    rw [parseNat_toDigits _ hclosed, Option.bind_some, if_neg (by omega), habs]
  · obtain ⟨c, digits, hcons, hc⟩ := exists_toDigits value.natAbs
    have hminus : c ≠ '-' := by
      rintro rfl
      cases hc
    have habs : (value.natAbs : ℤ) = value := by omega
    rw [List.nil_append, hcons, List.cons_append, parseInt, if_neg hminus, ← List.cons_append,
      ← hcons, parseNat_toDigits _ hclosed]
    simp only [Option.map_some, habs]

/-- A value's text starts with a sign that is neither a space nor the end of an
array. -/
theorem exists_print (value : Json) :
    ∃ c more, value.print = c :: more ∧ isSpace c = false ∧ c ≠ ']' := by
  have hdigit : ∀ c : Char, c.isDigit = true → isSpace c = false ∧ c ≠ ']' := by
    intro c hc
    refine ⟨?_, fun hend => by rw [hend] at hc; cases hc⟩
    unfold isSpace
    simp only [Bool.or_eq_false_iff, decide_eq_false_iff_not]
    refine ⟨⟨⟨?_, ?_⟩, ?_⟩, ?_⟩ <;> rintro rfl <;> cases hc
  cases value with
  | null => exact ⟨'n', _, by rw [print], rfl, by decide⟩
  | bool value =>
      cases value with
      | true => exact ⟨'t', _, by rw [print], rfl, by decide⟩
      | false => exact ⟨'f', _, by rw [print], rfl, by decide⟩
  | int value =>
      rw [print]
      unfold intText
      split_ifs with hneg
      · exact ⟨'-', _, rfl, rfl, by decide⟩
      · obtain ⟨c, digits, hcons, hc⟩ := exists_toDigits value.natAbs
        exact ⟨c, digits, by rw [hcons]; rfl, hdigit c hc⟩
  | str text => exact ⟨'"', _, by rw [print]; rfl, rfl, by decide⟩
  | arr items => exact ⟨'[', _, by rw [print], rfl, by decide⟩
  | obj members => exact ⟨'{', _, by rw [print], rfl, by decide⟩

theorem parseSign_print {value : Json} (rest : List Char) :
    parseSign ']' (value.print ++ rest) = none := by
  obtain ⟨c, more, hprint, hspace, hend⟩ := exists_print value
  rw [hprint, List.cons_append, parseSign_cons hspace, if_neg hend]

theorem parseValue_int (fuel : ℕ) (value : ℤ) {rest : List Char} (hclosed : Closed rest) :
    parseValue (fuel + 1) (intText value ++ rest) = some (int value, rest) := by
  obtain ⟨c, more, hprint, hspace, -⟩ := exists_print (int value)
  rw [print] at hprint
  have hparse := parseInt_intText value hclosed
  have hc : c = '-' ∨ c.isDigit = true := by
    unfold intText at hprint
    split_ifs at hprint
    · exact Or.inl (List.cons.inj hprint).1.symm
    · obtain ⟨c', digits, hcons, hc'⟩ := exists_toDigits value.natAbs
      rw [hcons] at hprint
      exact Or.inr ((List.cons.inj hprint).1 ▸ hc')
  have hother : ∀ sign : Char, sign ≠ '-' → sign.isDigit = false → c ≠ sign := by
    rintro sign hminus hdigit rfl
    rcases hc with rfl | hc
    · exact hminus rfl
    · rw [hdigit] at hc
      cases hc
  rw [hprint, List.cons_append] at hparse ⊢
  rw [parseValue, skip_cons hspace]
  simp only [if_neg (hother '"' (by decide) rfl), if_neg (hother '[' (by decide) rfl),
    if_neg (hother '{' (by decide) rfl), if_neg (hother 'n' (by decide) rfl),
    if_neg (hother 't' (by decide) rfl), if_neg (hother 'f' (by decide) rfl)]
  exact hparse

theorem parseWord_append (word : List Char) (value : Json) (rest : List Char) :
    parseWord word value (word ++ rest) = some (value, rest) := by
  unfold parseWord
  rw [if_pos (List.isPrefixOf_iff_prefix.2 (List.prefix_append _ _)), List.drop_left]

theorem closed_printMoreItems (items : List Json) (rest : List Char) :
    Closed (printMoreItems items ++ rest) := by
  cases items <;> rw [printMoreItems] <;> exact Closed.cons rfl _

theorem closed_printMoreMembers (members : List (String × Json)) (rest : List Char) :
    Closed (printMoreMembers members ++ rest) := by
  cases members <;> rw [printMoreMembers] <;> exact Closed.cons rfl _

theorem parseSign_head (sign : Char) (hspace : isSpace sign = false) (rest : List Char) :
    parseSign sign (sign :: rest) = some rest := by
  rw [parseSign_cons hspace, if_pos rfl]

theorem parseSign_other {c sign : Char} (hspace : isSpace c = false) (hother : c ≠ sign)
    (rest : List Char) : parseSign sign (c :: rest) = none := by
  rw [parseSign_cons hspace, if_neg hother]

mutual

/-- A value is read back from its text. -/
theorem parseValue_print : ∀ (value : Json) (fuel : ℕ) (rest : List Char),
    2 * value.print.length < fuel → Closed rest →
      parseValue fuel (value.print ++ rest) = some (value, rest)
  | value, 0, _, hfuel, _ => absurd hfuel (Nat.not_lt_zero _)
  | null, fuel + 1, rest, _, _ => by
      rw [print, List.cons_append, parseValue, skip_cons rfl]
      exact parseWord_append ['u', 'l', 'l'] null rest
  | bool true, fuel + 1, rest, _, _ => by
      rw [print, List.cons_append, parseValue, skip_cons rfl]
      exact parseWord_append ['r', 'u', 'e'] (bool true) rest
  | bool false, fuel + 1, rest, _, _ => by
      rw [print, List.cons_append, parseValue, skip_cons rfl]
      exact parseWord_append ['a', 'l', 's', 'e'] (bool false) rest
  | int value, fuel + 1, rest, _, hclosed => by
      rw [print]
      exact parseValue_int fuel value hclosed
  | str text, fuel + 1, rest, _, _ => by
      rw [print, quoted_append, parseValue, skip_cons rfl]
      simp only [if_true, parseString_flatMap, Option.map_some]
  | arr items, fuel + 1, rest, hfuel, _ => by
      rw [print, List.length_cons] at hfuel
      rw [print, List.cons_append, parseValue, skip_cons rfl]
      have hitems := parseItems_print items fuel rest (by omega)
      simp only [hitems, Option.map_some]
      rfl
  | obj members, fuel + 1, rest, hfuel, _ => by
      rw [print, List.length_cons] at hfuel
      rw [print, List.cons_append, parseValue, skip_cons rfl]
      have hmembers := parseMembers_print members fuel rest (by omega)
      simp only [hmembers, Option.map_some]
      rfl

theorem parseItems_print : ∀ (items : List Json) (fuel : ℕ) (rest : List Char),
    2 * (printItems items).length ≤ fuel →
      parseItems fuel (printItems items ++ rest) = some (items, rest)
  | [], 0, _, hfuel => by
      rw [printItems] at hfuel
      cases hfuel
  | [], fuel + 1, rest, _ => by
      rw [printItems]
      rfl
  | item :: items, fuel, rest, hfuel => by
      rw [printItems, List.length_append] at hfuel
      obtain ⟨c, more, hprint, -⟩ := exists_print item
      have hpos : item.print.length ≠ 0 := by rw [hprint]; exact Nat.succ_ne_zero _
      have hmore : (printMoreItems items).length ≠ 0 := by
        cases items <;> rw [printMoreItems] <;> exact Nat.succ_ne_zero _
      obtain ⟨fuel, rfl⟩ := Nat.exists_eq_succ_of_ne_zero (n := fuel) (by omega)
      have hitem := parseValue_print item fuel (printMoreItems items ++ rest) (by omega)
        (closed_printMoreItems items rest)
      have hitems := parseMoreItems_print items fuel rest (by omega)
      rw [printItems, List.append_assoc, parseItems, parseSign_print]
      simp [hitem, hitems]

theorem parseMoreItems_print : ∀ (items : List Json) (fuel : ℕ) (rest : List Char),
    2 * (printMoreItems items).length ≤ fuel →
      parseMoreItems fuel (printMoreItems items ++ rest) = some (items, rest)
  | [], 0, _, hfuel => by
      rw [printMoreItems] at hfuel
      cases hfuel
  | [], fuel + 1, rest, _ => by
      rw [printMoreItems]
      rfl
  | item :: items, fuel, rest, hfuel => by
      rw [printMoreItems, List.length_cons, List.length_append] at hfuel
      obtain ⟨fuel, rfl⟩ := Nat.exists_eq_succ_of_ne_zero (n := fuel) (by omega)
      have hitem := parseValue_print item fuel (printMoreItems items ++ rest) (by omega)
        (closed_printMoreItems items rest)
      have hitems := parseMoreItems_print items fuel rest (by omega)
      rw [printMoreItems, List.cons_append, List.append_assoc, parseMoreItems,
        parseSign_other rfl (by decide)]
      simp [parseSign_head ',' rfl, hitem, hitems]

theorem parseMembers_print : ∀ (members : List (String × Json)) (fuel : ℕ) (rest : List Char),
    2 * (printMembers members).length ≤ fuel →
      parseMembers fuel (printMembers members ++ rest) = some (members, rest)
  | [], 0, _, hfuel => by
      rw [printMembers] at hfuel
      cases hfuel
  | [], fuel + 1, rest, _ => by
      rw [printMembers]
      rfl
  | (name, value) :: members, fuel, rest, hfuel => by
      rw [printMembers, List.length_append, List.length_cons, List.length_append] at hfuel
      obtain ⟨fuel, rfl⟩ := Nat.exists_eq_succ_of_ne_zero (n := fuel) (by omega)
      have hvalue := parseValue_print value fuel (printMoreMembers members ++ rest) (by omega)
        (closed_printMoreMembers members rest)
      have hmembers := parseMoreMembers_print members fuel rest (by omega)
      rw [printMembers, List.append_assoc, List.cons_append, List.append_assoc, parseMembers,
        quoted_append, parseSign_other rfl (by decide)]
      simp [parseSign_head '"' rfl, parseSign_head ':' rfl, parseString_flatMap, hvalue, hmembers]

theorem parseMoreMembers_print :
    ∀ (members : List (String × Json)) (fuel : ℕ) (rest : List Char),
      2 * (printMoreMembers members).length ≤ fuel →
        parseMoreMembers fuel (printMoreMembers members ++ rest) = some (members, rest)
  | [], 0, _, hfuel => by
      rw [printMoreMembers] at hfuel
      cases hfuel
  | [], fuel + 1, rest, _ => by
      rw [printMoreMembers]
      rfl
  | (name, value) :: members, fuel, rest, hfuel => by
      rw [printMoreMembers, List.length_cons, List.length_append, List.length_cons,
        List.length_append] at hfuel
      obtain ⟨fuel, rfl⟩ := Nat.exists_eq_succ_of_ne_zero (n := fuel) (by omega)
      have hvalue := parseValue_print value fuel (printMoreMembers members ++ rest) (by omega)
        (closed_printMoreMembers members rest)
      have hmembers := parseMoreMembers_print members fuel rest (by omega)
      rw [printMoreMembers, List.cons_append, List.append_assoc, List.cons_append,
        List.append_assoc, parseMoreMembers, quoted_append, parseSign_other rfl (by decide)]
      simp [parseSign_head ',' rfl, parseSign_head '"' rfl, parseSign_head ':' rfl,
        parseString_flatMap, hvalue, hmembers]

end

theorem parse_text (value : Json) : parse value.text = some value := by
  have hprint := parseValue_print value (2 * value.print.length + 1) [] (Nat.lt_succ_self _)
    Closed.nil
  rw [List.append_nil] at hprint
  unfold parse text
  rw [String.toList_ofList, hprint]
  rfl

/-- Distinct values have distinct texts. -/
theorem text_injective : Function.Injective text := fun left right heq => by
  have hparse := parse_text left
  rw [heq, parse_text] at hparse
  exact (Option.some.inj hparse).symm

/-! ## Records -/

/-- The value of a member that stands there once. -/
def member (members : List (String × Json)) (name : String) : Option Json :=
  match members.filter fun member => member.1 = name with
  | [(_, value)] => some value
  | _ => none

/-- The values of a record's fields: by name from an object, whatever else it
holds, or by place from an array of just these. -/
def fields (names : List String) : Json → Option (List Json)
  | obj members => names.mapM (member members)
  | arr items => if items.length = names.length then some items else none
  | _ => none

def asString : Json → Option String
  | str text => some text
  | _ => none

def asBool : Json → Option Bool
  | bool value => some value
  | _ => none

/-- An integer that is an `i64`. -/
def asI64 : Json → Option {value : ℤ // I64.InRange value}
  | int value => if hrange : I64.InRange value then some ⟨value, hrange⟩ else none
  | _ => none

theorem asI64_int {value : ℤ} (hrange : I64.InRange value) :
    asI64 (int value) = some ⟨value, hrange⟩ :=
  dif_pos hrange

theorem member_cons_self {name : String} (value : Json) {members : List (String × Json)}
    (hfresh : name ∉ members.map Prod.fst) : member ((name, value) :: members) name = some value := by
  have hnone : (members.filter fun member => member.1 = name) = [] :=
    List.filter_eq_nil_iff.2 fun member hmem hname =>
      hfresh (List.mem_map.2 ⟨member, hmem, of_decide_eq_true hname⟩)
  unfold member
  simp only [List.filter_cons, decide_true, if_true, hnone]

theorem member_cons_ne {name other : String} (hne : other ≠ name) (value : Json)
    (members : List (String × Json)) :
    member ((other, value) :: members) name = member members name := by
  unfold member
  rw [List.filter_cons_of_neg (by simpa using hne)]

theorem mapM_member {members : List (String × Json)} {record : List (String × Json)}
    (hmember : ∀ field ∈ record, member members field.1 = some field.2) :
    (record.map Prod.fst).mapM (member members) = some (record.map Prod.snd) := by
  induction record with
  | nil => rfl
  | cons field record ih =>
      rw [List.map_cons, List.mapM_cons, hmember field List.mem_cons_self,
        ih fun other hmem => hmember other (List.mem_cons_of_mem _ hmem)]
      rfl

/-- Fields of distinct names are found at their names. -/
theorem member_of_mem {members : List (String × Json)} (hnodup : (members.map Prod.fst).Nodup)
    {field : String × Json} (hmem : field ∈ members) : member members field.1 = some field.2 := by
  induction members with
  | nil => cases hmem
  | cons head members ih =>
      rw [List.map_cons, List.nodup_cons] at hnodup
      rcases List.mem_cons.1 hmem with rfl | hmem
      · exact member_cons_self _ hnodup.1
      · have hne : head.1 ≠ field.1 := fun heq =>
          hnodup.1 (List.mem_map.2 ⟨field, hmem, heq.symm⟩)
        calc member (head :: members) field.1
            = member members field.1 := member_cons_ne hne _ _
          _ = some field.2 := ih hnodup.2 hmem

/-- The fields of an object of distinct names are the values under them. -/
theorem fields_obj {record : List (String × Json)} (hnodup : (record.map Prod.fst).Nodup) :
    fields (record.map Prod.fst) (obj record) = some (record.map Prod.snd) :=
  mapM_member fun _ hmem => member_of_mem hnodup hmem

/-- A field that an object does not hold is missing. -/
theorem fields_missing {names : List String} {name : String} (hname : name ∈ names)
    {members : List (String × Json)} (hfresh : name ∉ members.map Prod.fst) :
    fields names (obj members) = none := by
  have hmember : member members name = none := by
    have hnone : (members.filter fun member => member.1 = name) = [] :=
      List.filter_eq_nil_iff.2 fun member hmem heq =>
        hfresh (List.mem_map.2 ⟨member, hmem, of_decide_eq_true heq⟩)
    unfold member
    rw [hnone]
  show names.mapM (member members) = none
  induction names with
  | nil => cases hname
  | cons other names ih =>
      rw [List.mapM_cons]
      rcases List.mem_cons.1 hname with rfl | hmem
      · rw [hmember]
        rfl
      · rw [ih hmem]
        cases member members other <;> rfl

/-- The members of an object but those of one name. -/
def without (name : String) (members : List (String × Json)) : List (String × Json) :=
  members.filter fun member => member.1 ≠ name

/-- An internally tagged value: its tag, and the object or the array of the
rest. -/
def untag (name : String) : Json → Option (String × Json)
  | obj members => do
      let tag ← (← member members name).asString
      some (tag, obj (without name members))
  | arr (tag :: items) => tag.asString.map fun tag => (tag, arr items)
  | _ => none

theorem untag_obj {name : String} (tag : String) {record : List (String × Json)}
    (hfresh : name ∉ record.map Prod.fst) :
    untag name (obj ((name, str tag) :: record)) = some (tag, obj record) := by
  have hrest : without name ((name, str tag) :: record) = record := by
    unfold without
    rw [List.filter_cons_of_neg (by simp)]
    exact List.filter_eq_self.2 fun member hmem =>
      decide_eq_true fun heq => hfresh (List.mem_map.2 ⟨member, hmem, heq⟩)
  simp [untag, member_cons_self _ hfresh, asString, hrest]

end Json

end Talea
