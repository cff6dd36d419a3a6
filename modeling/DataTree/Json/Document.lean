import DataTree.Json.Escape
import DataTree.Number.Numeral
import DataTree.Text.Scan

/-!
# JSON as written

A document is the syntax of a JSON text: numbers and strings keep their
spelling, and objects keep their members in order with repetitions.  Reading
accepts exactly the grammar of the format and has no limit on nesting; what
strings and numbers denote, and how deep a text may nest, is decided by the
readings of a document.

## Main definitions

* `Document.chars` — the text without blanks, every literal as spelled.
* `Document.parse` — the document that a whole text is.
-/

namespace DataTree

/-- The syntax of a JSON text.  Strings and keys hold the characters between
the quotes as written. -/
inductive Document where
  | null
  | bool (value : Bool)
  | number (numeral : Numeral)
  | string (spelling : String)
  | array (items : List Document)
  | object (members : List (String × Document))
  deriving Repr, Inhabited

namespace Document

open Text Json

/-! ## Printing -/

/-- Texts separated by commas. -/
def commas (parts : List (List Char)) : List Char := [','].intercalate parts

/-- A spelling in its quotes. -/
def spelled (s : String) : List Char := '"' :: s.toList ++ ['"']

mutual
/-- The text of a document without blanks. -/
def chars : Document → List Char
  | .null => "null".toList
  | .bool true => "true".toList
  | .bool false => "false".toList
  | .number n => n.chars
  | .string s => spelled s
  | .array items => '[' :: commas (itemsChars items) ++ [']']
  | .object members => '{' :: commas (membersChars members) ++ ['}']

def itemsChars : List Document → List (List Char)
  | [] => []
  | d :: rest => chars d :: itemsChars rest

def membersChars : List (String × Document) → List (List Char)
  | [] => []
  | (key, d) :: rest => (spelled key ++ ':' :: chars d) :: membersChars rest
end

mutual
/-- How deep arrays and objects nest. -/
def depth : Document → Nat
  | .array items => itemsDepth items + 1
  | .object members => membersDepth members + 1
  | _ => 0

def itemsDepth : List Document → Nat
  | [] => 0
  | d :: rest => max (depth d) (itemsDepth rest)

def membersDepth : List (String × Document) → Nat
  | [] => 0
  | (_, d) :: rest => max (depth d) (membersDepth rest)
end

/-! ## Reading -/

/-- The blanks of the format. -/
def isSpace (c : Char) : Bool := c = ' ' || c = '\n' || c = '\t' || c = '\r'

def skipSpace (cs : List Char) : List Char := cs.dropWhile isSpace

/-- Letters that may follow a backslash. -/
def isEscapeLetter (c : Char) : Bool := "\"\\/bfnrt".toList.contains c

/-- The spelling of a string up to its closing quote, and the rest. -/
def readSpelling : List Char → Option (List Char × List Char)
  | [] => none
  | '"' :: rest => some ([], rest)
  | '\\' :: 'u' :: a :: b :: c :: d :: rest =>
    if isHex a && isHex b && isHex c && isHex d then
      (readSpelling rest).map fun r => ('\\' :: 'u' :: a :: b :: c :: d :: r.1, r.2)
    else none
  | '\\' :: c :: rest =>
    if isEscapeLetter c then (readSpelling rest).map fun r => ('\\' :: c :: r.1, r.2) else none
  | c :: rest =>
    if c.toNat < 32 || c = '\\' then none else (readSpelling rest).map fun r => (c :: r.1, r.2)

/-- A literal name or a number. -/
def readScalar (cs : List Char) : Option (Document × List Char) :=
  match after? "null".toList cs with
  | some rest => some (.null, rest)
  | none =>
    match after? "true".toList cs with
    | some rest => some (.bool true, rest)
    | none =>
      match after? "false".toList cs with
      | some rest => some (.bool false, rest)
      | none => (Numeral.read cs).map fun r => (.number r.1, r.2)

mutual
/-- Reads a document; `fuel` bounds the values and members read. -/
def readValue : (fuel : Nat) → List Char → Option (Document × List Char)
  | 0, _ => none
  | fuel + 1, cs =>
    match skipSpace cs with
    | '{' :: rest =>
      match skipSpace rest with
      | '}' :: rest => some (.object [], rest)
      | _ => (readMembers fuel rest).map fun r => (.object r.1, r.2)
    | '[' :: rest =>
      match skipSpace rest with
      | ']' :: rest => some (.array [], rest)
      | _ => (readItems fuel rest).map fun r => (.array r.1, r.2)
    | '"' :: rest => (readSpelling rest).map fun r => (.string (String.ofList r.1), r.2)
    | cs => readScalar cs

/-- The items of an array, at least one, and its closing bracket. -/
def readItems : (fuel : Nat) → List Char → Option (List Document × List Char)
  | 0, _ => none
  | fuel + 1, cs =>
    match readValue fuel cs with
    | none => none
    | some (d, rest) =>
      match skipSpace rest with
      | ',' :: rest => (readItems fuel rest).map fun r => (d :: r.1, r.2)
      | ']' :: rest => some ([d], rest)
      | _ => none

/-- The members of an object, at least one, and its closing brace. -/
def readMembers : (fuel : Nat) → List Char → Option (List (String × Document) × List Char)
  | 0, _ => none
  | fuel + 1, cs =>
    match skipSpace cs with
    | '"' :: rest =>
      match readSpelling rest with
      | none => none
      | some (key, rest) =>
        match skipSpace rest with
        | ':' :: rest =>
          match readValue fuel rest with
          | none => none
          | some (d, rest) =>
            match skipSpace rest with
            | ',' :: rest =>
              (readMembers fuel rest).map fun r => ((String.ofList key, d) :: r.1, r.2)
            | '}' :: rest => some ([(String.ofList key, d)], rest)
            | _ => none
        | _ => none
    | _ => none
end

/-- The document that a whole text is; every value and member takes up a
character, so the fuel suffices. -/
def parse (text : String) : Option Document :=
  match readValue (text.length + 1) text.toList with
  | some (d, rest) => if (skipSpace rest).isEmpty then some d else none
  | none => none

end Document

end DataTree
