import Bourse.Outbox.Cursor
import Std.Data.TreeMap

/-!
# The files of a symbol

A symbol has a log of its commands, an outbox and a cursor. Their names are made from the symbol
by replacing every character that might mean something in a path; different symbols can so come
to share their files. The names of a symbol with a long name are too long for some of its files,
the scratch file of the cursor first.

A `Directory` holds the files of symbols by the stem of their names.
-/

namespace Bourse

/-- The characters that symbols and file names have in common. -/
def isPlain (c : Char) : Bool :=
  c.isAlphanum || c = '_' || c = '-'

/-- The form of a symbol in file names. -/
def fileStem (symbol : String) : String :=
  String.ofList (symbol.toList.map fun c => if isPlain c then c else '_')

/-- A name in a directory as a path. -/
def pathIn (directory name : String) : String :=
  if directory.isEmpty || directory.toList.getLast? = some '/' then directory ++ name
  else directory ++ "/" ++ name

/-- Names of the files of a symbol. -/
structure SymbolPaths where
  log : String
  outbox : String
  cursor : String
  scratch : String
deriving DecidableEq, Repr, Inhabited

namespace SymbolPaths

/-- The names of files with this stem. -/
def ofStem (stem : String) : SymbolPaths where
  log := stem ++ ".wal"
  outbox := stem ++ ".ev.wal"
  cursor := stem ++ ".ev.cursor"
  scratch := stem ++ ".ev.cursor.tmp"

/-- The files of a symbol in a directory. -/
def of (directory symbol : String) : SymbolPaths :=
  let names := ofStem (fileStem symbol)
  { log := pathIn directory names.log, outbox := pathIn directory names.outbox,
    cursor := pathIn directory names.cursor, scratch := pathIn directory names.scratch }

end SymbolPaths

/-- The files of one symbol. -/
structure SymbolFiles where
  /-- The log of commands. -/
  log : File := .absent
  outbox : File := .absent
  cursor : File := .absent
  /-- Where a new cursor is written before it takes the place of the old one. -/
  scratch : File := .absent
deriving Inhabited

namespace SymbolFiles

/-- The files with this stem before anything is put into them. -/
def vacant (stem : String) : SymbolFiles :=
  let names := SymbolPaths.ofStem stem
  { log := .vacant names.log, outbox := .vacant names.outbox, cursor := .vacant names.cursor,
    scratch := .vacant names.scratch }

/-- Replaces the stored cursor, and says whether that succeeded. The scratch file stays behind
when the old cursor cannot be replaced. -/
def storeCursor (s : SymbolFiles) (offset : Nat) : SymbolFiles × Bool :=
  match s.scratch.create with
  | .error _ => (s, false)
  | .ok _ =>
    match Cursor.store s.cursor offset with
    | .ok cursor => ({ s with cursor, scratch := .absent }, true)
    | .error _ => ({ s with scratch := .ofBytes (Cursor.encode offset) }, false)

end SymbolFiles

/-! ## Directories -/

/-- The files of symbols by stem. -/
abbrev Directory := Std.TreeMap String SymbolFiles

namespace Directory

/-- The files of a symbol. -/
def filesOf (d : Directory) (symbol : String) : SymbolFiles :=
  let stem := fileStem symbol
  match d[stem]? with
  | some files => files
  | none => .vacant stem

/-- Replaces the files of a symbol. -/
def setFiles (d : Directory) (symbol : String) (files : SymbolFiles) : Directory :=
  d.insert (fileStem symbol) files

/-- Names and lengths of all files, sorted by name. -/
def listing (d : Directory) : List (String × Nat) :=
  let entries := d.toList.flatMap fun (stem, files) =>
    let names := SymbolPaths.ofStem stem
    [(names.log, files.log), (names.outbox, files.outbox), (names.cursor, files.cursor),
      (names.scratch, files.scratch)]
  let present := entries.filterMap fun (name, file) => file.length?.map fun n => (name, n)
  present.mergeSort fun a b => a.1 ≤ b.1

end Directory

end Bourse
