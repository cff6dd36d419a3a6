import DataTree.Store.Lock

/-!
# Stores in files

A store lies in a file of a directory or in memory, together with the
version of its layout.  Opening a file checks the version; a new or empty
file gets the layout if it is opened for creation.

## Main definitions

* `Files.openFile` — a file opened in a mode, or why it cannot be.
* `Connection` — an open store: a handle, and where its tables are.
-/

namespace DataTree

/-- A store with the version of its layout. -/
structure Database where
  version : Int
  store : Store
  deriving DecidableEq, Repr

/-- The version of the layout that this library reads and writes. -/
def layoutVersion : Int := 1

/-- A new store of the version in use. -/
def Database.fresh : Database := ⟨layoutVersion, Store.empty⟩

/-- What a file holds. -/
inductive FileContent where
  | text (content : String)
  | database (db : Database)
  deriving DecidableEq, Repr

/-- The files of a directory without further directories. -/
structure Files where
  directory : String
  entries : Keyed FileContent := []
  deriving DecidableEq, Repr

namespace Files

/-- The path of a file, as messages show it. -/
def pathOf (files : Files) (name : String) : String := s!"{files.directory}/{name}"

def put (files : Files) (name : String) (content : FileContent) : Files :=
  { files with entries := Keyed.insert name content files.entries }

/-- Whether a name leads into a directory of its own, which is not there. -/
def leavesDirectory (name : String) : Bool := name.toList.contains '/'

/-- The database in a file, if it holds one; an empty file holds one without
a layout. -/
def databaseIn : FileContent → Outcome Database
  | .database db => .ok db
  | .text content => if content = "" then .ok ⟨0, Store.empty⟩ else .error (.engine .notAStore)

/-- The database that a file is opened with. -/
def accepted (mode : OpenMode) (db : Database) : Outcome Database :=
  if mode = .create && db.version = 0 then .ok { db with version := layoutVersion }
  else if db.version = layoutVersion then .ok db
  else .error (.versionMismatch layoutVersion db.version)

/-- Opens a file. -/
def openFile (files : Files) (name : String) (mode : OpenMode) : Files × Outcome Database :=
  let found : Outcome Database :=
    match Keyed.find? name files.entries with
    | some content => databaseIn content >>= accepted mode
    | none =>
      if mode ≠ .create then .error (.fileNotFound (files.pathOf name))
      else if leavesDirectory name then .error (.cannotOpen (files.pathOf name))
      else .ok Database.fresh
  match found with
  | .ok db => (files.put name (.database db), .ok db)
  | .error e => (files, .error e)

end Files

/-! ## Connections -/

/-- Where an open store keeps its tables. -/
inductive Place where
  | memory (db : Database)
  | file (name : String)
  deriving DecidableEq, Repr

/-- An open store. -/
structure Connection where
  handle : Handle
  place : Place
  deriving DecidableEq, Repr

/-- What a handle opened in a mode may do. -/
def OpenMode.access : OpenMode → Access
  | .readOnly => .readOnly
  | .create | .readWrite => .readWrite

namespace Connection

/-- A new store in memory; it may be written whatever the mode. -/
def inMemory (lease : UInt64) : Connection :=
  ⟨{ access := .readWrite, lease := leaseOf lease }, .memory Database.fresh⟩

/-- Opens the store that settings describe. -/
def ofSettings (files : Files) (settings : Settings) : Files × Outcome Connection :=
  match settings.databasePath with
  | none => (files, .ok (inMemory settings.lease))
  | some name =>
    (files.openFile name settings.openMode).map id fun opened =>
      opened.map fun _ =>
        ⟨{ access := settings.openMode.access, lease := leaseOf settings.lease }, .file name⟩

/-- The tables of an open store. -/
def database (c : Connection) (files : Files) : Database :=
  match c.place with
  | .memory db => db
  | .file name =>
    match Keyed.find? name files.entries with
    | some (.database db) => db
    | _ => Database.fresh

/-- The connection and the files after its tables changed. -/
def putDatabase (c : Connection) (files : Files) (db : Database) : Connection × Files :=
  match c.place with
  | .memory _ => ({ c with place := .memory db }, files)
  | .file name => (c, files.put name (.database db))

/-- Stamps a version on the store. -/
def setVersion (c : Connection) (db : Database) (version : Int) : Database × Outcome Unit :=
  if c.handle.access = .readOnly then (db, .error (.engine .readOnly))
  else ({ db with version := version }, .ok ())

/-- Lays the tables out where they are missing and stamps the version. -/
def createLayout (c : Connection) (db : Database) : Database × Outcome Unit :=
  c.setVersion db layoutVersion

/-- Sets the stored text of the row at an owner and a path, whatever the text
is; says how many rows there are. -/
def setAttributes (c : Connection) (db : Database) (owner : Nat) (path attributes : String) :
    Database × Outcome Nat :=
  if c.handle.access = .readOnly then (db, .error (.engine .readOnly))
  else
    let isMeant (r : Row) : Bool := r.owner = owner && r.path = path
    let rows := db.store.rows.map fun r => if isMeant r then { r with attributes } else r
    ({ db with store := { db.store with rows } },
      .ok (db.store.rows.filter isMeant).length)

end Connection

end DataTree
