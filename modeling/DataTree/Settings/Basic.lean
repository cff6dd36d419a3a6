import DataTree.Settings.Toml

/-!
# Settings of a store

Which file to open and how, and the times that rule waiting and locks.  All
settings have defaults; a settings file may set each of them once.

## Main definitions

* `Settings.parse` — the settings a file's text gives, checked.
* `Settings.load` — the settings of the file in force, if there is one.
-/

namespace DataTree

/-- How a store is opened. -/
inductive OpenMode where
  /-- Reading and writing; a missing file is created. -/
  | create
  | readWrite
  | readOnly
  deriving DecidableEq, Repr

def OpenMode.name : OpenMode → String
  | .create => "create"
  | .readWrite => "read-write"
  | .readOnly => "read-only"

def OpenMode.ofName? (name : String) : Option OpenMode :=
  [OpenMode.create, .readWrite, .readOnly].find? (·.name = name)

/-- What a settings file can set; times are in milliseconds. -/
structure Settings where
  /-- The store's file; a store in memory without one. -/
  databasePath : Option String := none
  openMode : OpenMode := .create
  busyTimeout : UInt64 := 5000
  /-- Time between two attempts to take a held lock. -/
  pollInterval : UInt64 := 10
  /-- Age at which a held lock may be taken over. -/
  lease : UInt64 := 300000
  deriving DecidableEq, Repr

/-- Why there are no settings. -/
inductive SettingsError where
  | unreadable
  | notSettings
  | invalid (reason : String)
  deriving DecidableEq, Repr

def SettingsError.message : SettingsError → String
  | .unreadable => "Failed to read config file"
  | .notSettings => "Failed to parse TOML"
  | .invalid reason => s!"Invalid configuration: {reason}"

namespace Settings

open Toml

/-! ## Single settings -/

def textOf? : Value → Option String
  | .text s => some s
  | _ => none

def timeOf? : Value → Option UInt64
  | .integer n => if 0 ≤ n && n < UInt64.size then some (UInt64.ofNat n.toNat) else none
  | _ => none

/-- A mode is given by its name, or as a table that holds nothing but an
empty value under that name. -/
def modeOf? : Value → Option OpenMode
  | .text s => OpenMode.ofName? s
  | .table [([name], .nothing)] => OpenMode.ofName? name
  | _ => none

/-! ## A whole file -/

/-- The assignments before the first header, and the rest. -/
def splitAtHeader (statements : List Statement) :
    List (List String × Value) × List Statement :=
  match statements with
  | .assign key value :: rest =>
    ((key, value) :: (splitAtHeader rest).1, (splitAtHeader rest).2)
  | rest => ([], rest)

/-- The values assigned to a key. -/
def assigned (key : List String) (assignments : List (List String × Value)) : List Value :=
  (assignments.filter fun a => a.1 = key).map (·.2)

/-- A setting that may be given once. -/
def setting? {α : Type} (name : String) (read : Value → Option α) (default : α)
    (assignments : List (List String × Value)) : Option α :=
  match assigned [name] assignments with
  | [] => some default
  | [value] => read value
  | _ => none

def modeKey : String := "open_mode"

/-- The modes of dotted keys such as `open_mode.create`. -/
def dottedModes (assignments : List (List String × Value)) : List (Option OpenMode) :=
  assignments.filterMap fun a =>
    match a with
    | ([key, name], .nothing) => if key = modeKey then some (OpenMode.ofName? name) else none
    | (key :: _ :: _, _) => if key = modeKey then some none else none
    | _ => none

/-- Whether a statement is the header of the mode's table, or of the mode
`name` in it. -/
def isModeHeader (name : String) : Statement → Bool
  | .header [key] => key = modeKey
  | .header [key, mode] => key = modeKey && mode = name
  | _ => false

/-- The mode that table headers give: a header for the mode itself, or one
for its table with the mode assigned below it. -/
def headerMode? (sections : List Statement) : Option OpenMode :=
  match sections with
  | [.header [key], .assign [name] .nothing] =>
    if key = modeKey then OpenMode.ofName? name else none
  | _ =>
    match sections.partition fun s => s matches .header [_] with
    | (plain, [.header [_, name]]) =>
      if plain.length ≤ 1 && sections.all (isModeHeader name) then OpenMode.ofName? name else none
    | _ => none

/-- The mode a file gives, in one of the three ways. -/
def mode? (assignments : List (List String × Value)) (sections : List Statement) :
    Option OpenMode :=
  match dottedModes assignments, sections with
  | [], [] => setting? modeKey modeOf? .create assignments
  | [mode], [] => if (assigned [modeKey] assignments).isEmpty then mode else none
  | [], sections => if (assigned [modeKey] assignments).isEmpty then headerMode? sections else none
  | _, _ => none

/-- The names of the settings. -/
def names : List String :=
  ["database_path", modeKey, "busy_timeout_ms", "lock_poll_interval_ms", "lock_lease_ms"]

/-- Whether a key is one of a setting; only the mode has inner keys. -/
def isKnown (key : List String) : Bool :=
  match key with
  | [name] => names.contains name
  | [name, _] => name = modeKey
  | _ => false

/-- The settings that statements give. -/
def ofStatements (statements : List Statement) : Option Settings := do
  let (assignments, sections) := splitAtHeader statements
  if !assignments.all fun a => isKnown a.1 then none
  else
    let databasePath ← setting? "database_path" (fun v => (textOf? v).map some) none assignments
    let openMode ← mode? assignments sections
    let busyTimeout ← setting? "busy_timeout_ms" timeOf? 5000 assignments
    let pollInterval ← setting? "lock_poll_interval_ms" timeOf? 10 assignments
    let lease ← setting? "lock_lease_ms" timeOf? 300000 assignments
    return ⟨databasePath, openMode, busyTimeout, pollInterval, lease⟩

/-- Times are positive, and a store in memory is always a new one. -/
def validate (s : Settings) : Except SettingsError Settings :=
  if s.busyTimeout = 0 then .error (.invalid "busy_timeout_ms must be greater than 0")
  else if s.pollInterval = 0 then .error (.invalid "lock_poll_interval_ms must be greater than 0")
  else if s.lease = 0 then .error (.invalid "lock_lease_ms must be greater than 0")
  else if s.databasePath.isNone && s.openMode ≠ .create then
    .error (.invalid "an in-memory database must use open_mode = \"create\"")
  else .ok s

/-- The settings that a file's text gives. -/
def parse (text : String) : Except SettingsError Settings :=
  match (statements text).bind ofStatements with
  | some s => s.validate
  | none => .error .notSettings

/-- The settings in force: of the file that is named, else of the usual file
if that exists, else the defaults. -/
def load (named : Option String) (usual : String) (read : String → Option String) :
    Except SettingsError Settings :=
  match named with
  | some file =>
    match read file with
    | some text => parse text
    | none => .error .unreadable
  | none =>
    match read usual with
    | some text => parse text
    | none => .ok {}

end Settings

end DataTree
