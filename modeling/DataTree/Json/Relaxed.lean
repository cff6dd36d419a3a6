import DataTree.Json.Document

/-!
# A relaxed reading of JSON

Stored text is read more freely inside queries than as part of a tree.
Besides the format itself this reading takes comments, more blanks, keys
without quotes, single quotes, commas before a closing bracket, hexadecimal
numbers, signs and points without digits beside them, infinities, and
not-a-number, which is null.

What is read becomes an ordinary document: spellings outside the format are
replaced by spellings of the same value within it.

## Main definitions

* `Document.parseRelaxed` — the document of a whole text.
-/

namespace DataTree.Document

open Text Json

/-! ## Fillers -/

/-- The code points of blanks beyond the control characters and the
space. -/
def wideBlanks : List Nat :=
  [0xA0, 0x1680, 0x2000, 0x2001, 0x2002, 0x2003, 0x2004, 0x2005, 0x2006, 0x2007, 0x2008,
    0x2009, 0x200A, 0x2028, 0x2029, 0x202F, 0x205F, 0x3000, 0xFEFF]

def isWideBlank (c : Char) : Bool :=
  isBlank c || c = '\x0b' || wideBlanks.contains c.toNat

/-- The characters that end a line. -/
def isLineEnd (c : Char) : Bool :=
  c = '\n' || c = '\r' || c.toNat = 0x2028 || c.toNat = 0x2029

/-- What follows the end of a block comment. -/
def afterBlockComment : List Char → Option (List Char)
  | '*' :: '/' :: rest => some rest
  | _ :: rest => afterBlockComment rest
  | [] => none

/-- What follows the end of the line. -/
def afterLine : List Char → List Char
  | [] => []
  | c :: rest => if isLineEnd c then rest else afterLine rest

/-- Drops blanks and comments; `fuel` bounds their number. -/
def skipFillers : (fuel : Nat) → List Char → List Char
  | 0, cs => cs
  | fuel + 1, cs =>
    match cs with
    | '/' :: '/' :: rest => skipFillers fuel (afterLine rest)
    | '/' :: '*' :: rest =>
      match afterBlockComment rest with
      | some rest => skipFillers fuel rest
      | none => cs
    | c :: rest => if isWideBlank c then skipFillers fuel rest else cs
    | [] => []

/-- The text behind its leading blanks and comments. -/
def skipFiller (cs : List Char) : List Char := skipFillers cs.length cs

/-! ## Strings -/

/-- Puts the spelling of some characters before what was read. -/
def spelledBefore (spelling : List Char) (r : Option (List Char × List Char)) :
    Option (List Char × List Char) :=
  r.map fun r => (spelling ++ r.1, r.2)

/-- The spelling of a string up to its closing quote, and the rest. -/
def readQuoted (quote : Char) : List Char → Option (List Char × List Char)
  | [] => none
  | '\\' :: 'u' :: a :: b :: c :: d :: rest =>
    if isHex a && isHex b && isHex c && isHex d then
      spelledBefore ['\\', 'u', a, b, c, d] (readQuoted quote rest)
    else none
  | '\\' :: 'x' :: a :: b :: rest =>
    if isHex a && isHex b then
      spelledBefore ['\\', 'u', '0', '0', a, b] (readQuoted quote rest)
    else none
  | '\\' :: '\r' :: '\n' :: rest => readQuoted quote rest
  | '\\' :: c :: rest =>
    if isLineEnd c then readQuoted quote rest
    else if c = '\'' then spelledBefore ['\''] (readQuoted quote rest)
    else if c = 'v' then spelledBefore "\\u000b".toList (readQuoted quote rest)
    else if c = '0' then
      if (rest.head?.map Char.isDigit).getD false then none
      else spelledBefore "\\u0000".toList (readQuoted quote rest)
    else if isEscapeLetter c then spelledBefore ['\\', c] (readQuoted quote rest)
    else none
  | c :: rest =>
    if c = quote then some ([], rest)
    else if c = '\\' then none
    else spelledBefore (if c = '"' then ['\\', '"'] else [c]) (readQuoted quote rest)

/-! ## Numbers -/

/-- Beyond every number. -/
def infinity (negative : Bool) : Numeral :=
  ⟨negative, ['9'], [], some ⟨'e', none, ['9', '9', '9']⟩⟩

/-- The numeral of a hexadecimal number. -/
def hexNumeral (negative : Bool) (ds : List Char) : Numeral :=
  ⟨negative, Decimal.digits (natOfHex ds), [], none⟩

/-- A fraction, for which digits on one side of the point are enough; with
the whole digits. -/
def readFreeFraction (whole : List Char) :
    List Char → Option (List Char × List Char × List Char)
  | '.' :: rest =>
    let ds := rest.takeWhile Char.isDigit
    if whole.isEmpty && ds.isEmpty then none
    else
      some (if whole.isEmpty then ['0'] else whole, if ds.isEmpty then ['0'] else ds,
        rest.dropWhile Char.isDigit)
  | cs => if whole.isEmpty then none else some (whole, [], cs)

/-- A decimal number behind its sign. -/
def readFreeDecimal (negative : Bool) (cs : List Char) : Option (Numeral × List Char) := do
  let ds := cs.takeWhile Char.isDigit
  if 1 < ds.length && ds.head? = some '0' then none
  let (whole, fraction, cs) ← readFreeFraction ds (cs.dropWhile Char.isDigit)
  let (exponent, cs) ← Numeral.readExponent cs
  return (⟨negative, whole, fraction, exponent⟩, cs)

/-- What follows a word in letters of any case. -/
def afterFolded? (word cs : List Char) : Option (List Char) :=
  if (cs.take word.length).map Char.toLower = word then some (cs.drop word.length) else none

/-- A number behind its sign, hexadecimal or decimal. -/
def readUnsigned (negative : Bool) (cs : List Char) : Option (Numeral × List Char) :=
  match cs with
  | '0' :: x :: rest =>
    let ds := rest.takeWhile isHex
    if (x = 'x' || x = 'X') && !ds.isEmpty then
      some (hexNumeral negative ds, rest.dropWhile isHex)
    else readFreeDecimal negative cs
  | _ => readFreeDecimal negative cs

/-- A number behind a sign that was written. -/
def readSigned (negative : Bool) (cs : List Char) : Option (Numeral × List Char) :=
  match afterFolded? "infinity".toList cs, afterFolded? "inf".toList cs with
  | some rest, _ => some (infinity negative, rest)
  | none, some rest => some (infinity negative, rest)
  | none, none => readUnsigned negative cs

/-- A number with an optional sign. -/
def readNumber : List Char → Option (Numeral × List Char)
  | '-' :: rest => readSigned true rest
  | '+' :: rest => readSigned false rest
  | cs => readUnsigned false cs

/-! ## Words -/

/-- The words of the format, which are in lower case. -/
def words : List (String × Document) :=
  [("null", .null), ("true", .bool true), ("false", .bool false)]

/-- The words besides, in letters of any case. -/
def freeWords : List (String × Document) :=
  [("inf", .number (infinity false)), ("infinity", .number (infinity false)),
    ("nan", .null), ("qnan", .null), ("snan", .null)]

/-- Whether a word ends here. -/
def endsWord (cs : List Char) : Bool := !(cs.head?.map Char.isAlphanum).getD false

/-- A word that stands for a value. -/
def readWord (cs : List Char) : Option (Document × List Char) :=
  let exact := words.findSome? fun w =>
    ((after? w.1.toList cs).filter endsWord).map fun rest => (w.2, rest)
  let free := freeWords.findSome? fun w =>
    ((afterFolded? w.1.toList cs).filter endsWord).map fun rest => (w.2, rest)
  exact <|> free

/-! ## Keys -/

/-- Characters that a key without quotes may start with. -/
def startsKey (c : Char) : Bool :=
  (c.isAlpha || c = '_' || c = '$' || 0x80 ≤ c.toNat) && !isWideBlank c

/-- The spelling of a key without quotes, and the rest. -/
def readBareKey : List Char → List Char × List Char
  | '\\' :: 'u' :: a :: b :: c :: d :: rest =>
    if isHex a && isHex b && isHex c && isHex d then
      match readBareKey rest with
      | (key, left) => ('\\' :: 'u' :: a :: b :: c :: d :: key, left)
    else ([], '\\' :: 'u' :: a :: b :: c :: d :: rest)
  | c :: rest =>
    if startsKey c || c.isDigit then
      match readBareKey rest with
      | (key, left) => (c :: key, left)
    else ([], c :: rest)
  | [] => ([], [])

/-- The spelling of a key: in quotes, or bare unless it is a word that stands
for a value or starts with a digit. -/
def readKey (cs : List Char) : Option (List Char × List Char) :=
  match cs with
  | '"' :: rest => readQuoted '"' rest
  | '\'' :: rest => readQuoted '\'' rest
  | c :: _ =>
    if (readWord cs).isSome || c.isDigit then none
    else
      match readBareKey cs with
      | ([], _) => none
      | key => some key
  | [] => none

/-! ## Documents -/

mutual
/-- Reads a document; `fuel` bounds the values and members read. -/
def readFree : (fuel : Nat) → List Char → Option (Document × List Char)
  | 0, _ => none
  | fuel + 1, cs =>
    match skipFiller cs with
    | '{' :: rest =>
      match skipFiller rest with
      | '}' :: rest => some (.object [], rest)
      | _ => (readFreeMembers fuel rest).map fun r => (.object r.1, r.2)
    | '[' :: rest =>
      match skipFiller rest with
      | ']' :: rest => some (.array [], rest)
      | _ => (readFreeItems fuel rest).map fun r => (.array r.1, r.2)
    | '"' :: rest => (readQuoted '"' rest).map fun r => (.string (String.ofList r.1), r.2)
    | '\'' :: rest => (readQuoted '\'' rest).map fun r => (.string (String.ofList r.1), r.2)
    | cs => readWord cs <|> (readNumber cs).map fun r => (.number r.1, r.2)

/-- The items of an array, at least one, and its closing bracket. -/
def readFreeItems : (fuel : Nat) → List Char → Option (List Document × List Char)
  | 0, _ => none
  | fuel + 1, cs =>
    match readFree fuel cs with
    | none => none
    | some (d, rest) =>
      match skipFiller rest with
      | ']' :: rest => some ([d], rest)
      | ',' :: rest =>
        match skipFiller rest with
        | ']' :: rest => some ([d], rest)
        | _ => (readFreeItems fuel rest).map fun r => (d :: r.1, r.2)
      | _ => none

/-- The members of an object, at least one, and its closing brace. -/
def readFreeMembers : (fuel : Nat) → List Char → Option (List (String × Document) × List Char)
  | 0, _ => none
  | fuel + 1, cs =>
    match readKey (skipFiller cs) with
    | none => none
    | some (key, rest) =>
      match skipFiller rest with
      | ':' :: rest =>
        match readFree fuel rest with
        | none => none
        | some (d, rest) =>
          match skipFiller rest with
          | '}' :: rest => some ([(String.ofList key, d)], rest)
          | ',' :: rest =>
            match skipFiller rest with
            | '}' :: rest => some ([(String.ofList key, d)], rest)
            | _ => (readFreeMembers fuel rest).map fun r => ((String.ofList key, d) :: r.1, r.2)
          | _ => none
      | _ => none
end

/-- The document that a whole text is in the relaxed reading; a text ends at
a NUL. -/
def parseRelaxed (text : String) : Option Document :=
  let cs := text.toList.takeWhile fun c => c ≠ '\x00'
  match readFree (cs.length + 1) cs with
  | some (d, rest) => if (skipFiller rest).isEmpty then some d else none
  | none => none

end DataTree.Document
