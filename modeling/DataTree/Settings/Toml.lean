import DataTree.Json.Escape
import DataTree.Number.Decimal

/-!
# The text of a settings file

A settings file is a TOML document.  This reader knows the values a setting
can have: strings of all four kinds, integers in four bases, and tables whose
innermost values are empty.  Every other value is a type error for every
setting, so a document that holds one is refused here.

## Main definitions

* `Toml.statements` — the assignments and table headers of a document.
-/

namespace DataTree.Toml

/-- The value of an assignment. -/
inductive Value where
  | text (s : String)
  | integer (n : Int)
  /-- An empty table or an empty array. -/
  | nothing
  | table (members : List (List String × Value))
  deriving Repr, Inhabited

/-- One line of a document, keys split at their dots. -/
inductive Statement where
  | assign (key : List String) (value : Value)
  | header (key : List String)
  deriving Repr, Inhabited

/-! ## Blanks, comments and line ends -/

def isBlank (c : Char) : Bool := c = ' ' || c = '\t'

def skipBlank (cs : List Char) : List Char := cs.dropWhile isBlank

/-- Control characters other than the tab; none may stand in a comment or a
string. -/
def isControl (c : Char) : Bool := (c.toNat < 32 && c ≠ '\t') || c.toNat = 127

/-- The text without a comment at its start. -/
def skipComment : List Char → List Char
  | '#' :: rest => rest.dropWhile fun c => !isControl c
  | cs => cs

/-- The text after a line end. -/
def newline? : List Char → Option (List Char)
  | '\n' :: rest => some rest
  | '\r' :: '\n' :: rest => some rest
  | _ => none

/-- The text after blanks, an optional comment, and the end of a line or of
the whole text. -/
def endOfLine? (cs : List Char) : Option (List Char) :=
  match skipComment (skipBlank cs) with
  | [] => some []
  | rest => newline? rest

/-- The text without blanks, comments and line ends at its start; `fuel`
bounds their number. -/
def skipLines : (fuel : Nat) → List Char → List Char
  | 0, cs => cs
  | fuel + 1, cs =>
    let rest := skipComment (skipBlank cs)
    match newline? rest with
    | some more => skipLines fuel more
    | none => rest

/-! ## Strings -/

/-- The character of a code point written with so many hexadecimal digits. -/
def codePoint? (ds : List Char) (count : Nat) : Option Char :=
  let n := Json.natOfHex ds
  if ds.length = count && ds.all Json.isHex && n.isValidChar then some (Char.ofNat n) else none

/-- The character an escape spells, from the text after its backslash, and
the number of characters it takes. -/
def escape? : List Char → Option (Char × Nat)
  | 'x' :: rest => (codePoint? (rest.take 2) 2).map fun c => (c, 3)
  | 'u' :: rest => (codePoint? (rest.take 4) 4).map fun c => (c, 5)
  | 'U' :: rest => (codePoint? (rest.take 8) 8).map fun c => (c, 9)
  | 'e' :: _ => some ('\x1b', 1)
  | c :: _ => if "btnfr\"\\".toList.contains c then some (Json.escapedLetter c, 1) else none
  | [] => none

/-- The content of a string on one line up to its closing quote; a literal
string has no escapes. -/
def readLine (quote : Char) : (fuel : Nat) → List Char → Option (List Char × List Char)
  | 0, _ => none
  | _, [] => none
  | fuel + 1, c :: rest =>
    if c = quote then some ([], rest)
    else if isControl c then none
    else if c = '\\' && quote = '"' then
      match escape? rest with
      | some (d, count) => (readLine quote fuel (rest.drop count)).map fun r => (d :: r.1, r.2)
      | none => none
    else (readLine quote fuel rest).map fun r => (c :: r.1, r.2)

/-- The content of a string over several lines.  Up to two quotes may stand
right before the closing three; a backslash at the end of a line of an
escaped string joins it with the next text. -/
def readLines (quote : Char) : (fuel : Nat) → List Char → Option (List Char × List Char)
  | 0, _ => none
  | _, [] => none
  | fuel + 1, c :: rest =>
    let run := ((c :: rest).takeWhile (· = quote)).length
    if 3 ≤ run then
      let taken := min run 5
      some (List.replicate (taken - 3) quote, (c :: rest).drop taken)
    else
      match newline? (c :: rest) with
      | some more =>
        (readLines quote fuel more).map fun r =>
          ((if c = '\r' then ['\r', '\n'] else ['\n']) ++ r.1, r.2)
      | none =>
        if isControl c then none
        else if c = '\\' && quote = '"' then
          match newline? (skipBlank rest) with
          | some more =>
            readLines quote fuel (more.dropWhile fun c => isBlank c || c = '\n' || c = '\r')
          | none =>
            match escape? rest with
            | some (d, count) =>
              (readLines quote fuel (rest.drop count)).map fun r => (d :: r.1, r.2)
            | none => none
        else (readLines quote fuel rest).map fun r => (c :: r.1, r.2)

/-- A string from its opening quote on; a line end right after three opening
quotes is dropped. -/
def readString (quote : Char) (cs : List Char) : Option (List Char × List Char) :=
  match cs.takeWhile (· = quote) with
  | _ :: _ :: _ :: _ =>
    let body := cs.drop 3
    readLines quote (body.length + 1) ((newline? body).getD body)
  | _ => readLine quote (cs.length + 1) (cs.drop 1)

/-! ## Keys -/

def isBareKeyChar (c : Char) : Bool := c.isAlphanum || c = '_' || c = '-'

def readSimpleKey : List Char → Option (String × List Char)
  | [] => none
  | c :: rest =>
    if c = '"' || c = '\'' then
      (readLine c (rest.length + 1) rest).map fun r => (String.ofList r.1, r.2)
    else if isBareKeyChar c then
      some (String.ofList (c :: rest.takeWhile isBareKeyChar), rest.dropWhile isBareKeyChar)
    else none

/-- A key with its dots; blanks may surround them. -/
def readKey : (fuel : Nat) → List Char → Option (List String × List Char)
  | 0, _ => none
  | fuel + 1, cs =>
    match readSimpleKey (skipBlank cs) with
    | none => none
    | some (k, rest) =>
      match skipBlank rest with
      | '.' :: more => (readKey fuel more).map fun r => (k :: r.1, r.2)
      | more => some ([k], more)

/-! ## Integers -/

/-- Digits with single underscores between them. -/
def dropUnderscores (isDigit : Char → Bool) : List Char → Option (List Char)
  | [] => none
  | [c] => if isDigit c then some [c] else none
  | c :: '_' :: rest => if isDigit c then (dropUnderscores isDigit rest).map (c :: ·) else none
  | c :: rest => if isDigit c then (dropUnderscores isDigit rest).map (c :: ·) else none

def isOctal (c : Char) : Bool := '0' ≤ c && c ≤ '7'

def isBinary (c : Char) : Bool := c = '0' || c = '1'

/-- A decimal integer without its sign; only zero starts with a zero. -/
def decimal? (cs : List Char) : Option Nat :=
  match dropUnderscores Char.isDigit cs with
  | some ['0'] => some 0
  | some ('0' :: _) => none
  | some ds => some (Decimal.natOfDigits ds)
  | none => none

/-- The integer a whole token is. -/
def integer? : List Char → Option Int
  | '0' :: 'x' :: ds => (dropUnderscores Json.isHex ds).map fun ds => (Json.natOfHex ds : Int)
  | '0' :: 'o' :: ds =>
    (dropUnderscores isOctal ds).map fun ds => (Nat.ofDigitChars 8 ds 0 : Int)
  | '0' :: 'b' :: ds =>
    (dropUnderscores isBinary ds).map fun ds => (Nat.ofDigitChars 2 ds 0 : Int)
  | '+' :: ds => (decimal? ds).map fun n => (n : Int)
  | '-' :: ds => (decimal? ds).map fun n => -(n : Int)
  | ds => (decimal? ds).map fun n => (n : Int)

/-- Characters of a token that is no string. -/
def isTokenChar (c : Char) : Bool := c.isAlphanum || "_+-.:".toList.contains c

/-! ## Values and statements -/

mutual
/-- A value. -/
def readValue : (fuel : Nat) → List Char → Option (Value × List Char)
  | 0, _ => none
  | fuel + 1, cs =>
    match cs with
    | '[' :: rest =>
      match skipLines (rest.length + 1) rest with
      | ']' :: more => some (.nothing, more)
      | _ => none
    | '{' :: rest =>
      match skipLines (rest.length + 1) rest with
      | '}' :: more => some (.nothing, more)
      | more => (readMembers fuel more).map fun r => (.table r.1, r.2)
    | '"' :: _ => (readString '"' cs).map fun r => (.text (String.ofList r.1), r.2)
    | '\'' :: _ => (readString '\'' cs).map fun r => (.text (String.ofList r.1), r.2)
    | _ => (integer? (cs.takeWhile isTokenChar)).map fun n =>
        (.integer n, cs.dropWhile isTokenChar)

/-- The members of an inline table, at least one, and its closing brace; a
comma may follow the last one. -/
def readMembers : (fuel : Nat) → List Char → Option (List (List String × Value) × List Char)
  | 0, _ => none
  | fuel + 1, cs =>
    match readKey (cs.length + 1) cs with
    | some (key, '=' :: rest) =>
      match readValue fuel (skipBlank rest) with
      | none => none
      | some (value, rest) =>
        match skipLines (rest.length + 1) rest with
        | '}' :: more => some ([(key, value)], more)
        | ',' :: more =>
          match skipLines (more.length + 1) more with
          | '}' :: more => some ([(key, value)], more)
          | more => (readMembers fuel more).map fun r => ((key, value) :: r.1, r.2)
        | _ => none
    | _ => none
end

/-- One header or assignment and the rest of the text after its line. -/
def readStatement (cs : List Char) : Option (Statement × List Char) :=
  match cs with
  | '[' :: rest =>
    match readKey (rest.length + 1) rest with
    | some (key, ']' :: more) => (endOfLine? more).map fun r => (.header key, r)
    | _ => none
  | _ =>
    match readKey (cs.length + 1) cs with
    | some (key, '=' :: rest) =>
      match readValue (rest.length + 1) (skipBlank rest) with
      | some (value, more) => (endOfLine? more).map fun r => (.assign key value, r)
      | none => none
    | _ => none

def readStatements : (fuel : Nat) → List Char → Option (List Statement)
  | 0, _ => none
  | fuel + 1, cs =>
    match skipLines (cs.length + 1) cs with
    | [] => some []
    | rest =>
      match readStatement rest with
      | some (s, more) => (readStatements fuel more).map (s :: ·)
      | none => none

/-- A byte order mark may open a document. -/
def skipMark : List Char → List Char
  | '\uFEFF' :: rest => rest
  | cs => cs

/-- The statements of a document. -/
def statements (text : String) : Option (List Statement) :=
  readStatements (text.length + 1) (skipMark text.toList)

end DataTree.Toml
