import Bourse.Engine.Session

/-!
# The program

Requests are read from standard input line by line, and what is published is printed when the
input ends. The environment configures the engine. The files of a symbol are read when a request
first names it, and written after every line that changed them.
-/

namespace Bourse.Program

/-- The variables that are set in the environment. -/
def environment : IO (List (String × String)) :=
  Config.keys.filterMapM fun key => do
    return (← IO.getEnv key).map fun value => (key, value)

/-- Something that cannot be read is in the way as a directory is. -/
def obstructed (path : String) : IO File := do
  return .directory (← (← IO.FS.realPath path).metadata).byteSize.toNat

/-- Reads a file, unless there can be none. -/
def load (path : String) (vacant : File) : IO File := do
  match vacant with
  | .absent =>
    try
      return .regular (← IO.FS.readBinFile path)
    catch
      | .noFileOrDirectory .. => return .absent
      | _ => obstructed path
  | other => return other

/-- Reads the files of a symbol, which can use none if there is no directory for them. A scratch
file that was left behind counts for nothing. -/
def loadSymbol (directory stem : String) : IO SymbolFiles := do
  let paths := SymbolPaths.of directory stem
  let vacant := SymbolFiles.vacant stem
  try
    IO.FS.createDirAll directory
    let log ← load paths.log vacant.log
    let outbox ← load paths.outbox vacant.outbox
    return { vacant with log, outbox, cursor := ← load paths.cursor vacant.cursor }
  catch _ =>
    let barred := File.directory 0
    return { vacant with log := barred, outbox := barred, cursor := barred }

/-- Brings a file up to date; bytes are added at its end if that is enough. -/
def save (path : String) (before after : File) : IO Unit := do
  match before, after with
  | .regular old, .regular new =>
    if old == new then return
    else if new.extract 0 old.size == old then
      let handle ← IO.FS.Handle.mk path .append
      handle.write (new.extract old.size new.size)
    else IO.FS.writeBinFile path new
  | _, .regular new => IO.FS.writeBinFile path new
  | _, _ => return

/-- Brings the files of a symbol up to date. The cursor comes last, so it never points beyond
what the outbox holds, and it takes the place of the old one as a whole. -/
def saveSymbol (paths : SymbolPaths) (before after : SymbolFiles) : IO Unit := do
  save paths.log before.log after.log
  save paths.outbox before.outbox after.outbox
  save paths.scratch before.scratch after.scratch
  if before.cursor.bytes != after.cursor.bytes then
    save paths.scratch .absent after.cursor
    IO.FS.rename paths.scratch paths.cursor

/-- No size is refused for want of memory: what the machine lacks shows when it is used. -/
def memory : Nat := Shortage.maxSize + 1

/-- Serves one line of input, unless the session has ended. -/
def serve (served : Attempt Engine SessionError Unit) (line : List Char) :
    IO (Attempt Engine SessionError Unit) := do
  match served, Session.symbol? line with
  | (e, .ok ()), some symbol =>
    let files ← match e.directory[fileStem symbol]? with
      | some files => pure files
      | none => loadSymbol e.config.directory (fileStem symbol)
    let e := { e with directory := e.directory.setFiles symbol files }
    let (e, result) := Session.serve memory e line
    saveSymbol (SymbolPaths.of e.config.directory symbol) files (e.directory.filesOf symbol)
    return (e, result)
  | _, _ => return served

/-- Serves all lines of a stream, unless the session ends before. -/
partial def serveAll (input : IO.FS.Stream) (e : Engine) :
    IO (Attempt Engine SessionError Unit) := do
  let text ← input.getLine
  if text.isEmpty then return (e, .ok ())
  match ← (Text.lines text.toList).foldlM serve (e, .ok ()) with
  | (e, .ok ()) => serveAll input e
  | failed => return failed

/-- Closes the engine. Everything is printed before the cursors are saved. -/
def finish (e : Engine) : IO Unit := do
  let (closed, published) := Session.close e
  for p in published do
    IO.println (String.ofList p.line)
  for (stem, files) in closed.directory.toList do
    saveSymbol (SymbolPaths.of e.config.directory stem) (e.directory.filesOf stem) files

/-- The code by which a shell tells of a program that was stopped. -/
def stopped : UInt32 := 134

/-- Reports why the session ended before its input. -/
def report (cause : SessionError) : IO UInt32 := do
  IO.eprintln cause.message
  return cause.exitCode.getD stopped

end Bourse.Program

open Bourse in
/-- Runs the engine until the input ends. -/
def main : IO UInt32 := do
  let environment ← Program.environment
  match Session.start (fun key => environment.lookup key) ∅ with
  | .error cause => Program.report cause
  | .ok e =>
    match ← Program.serveAll (← IO.getStdin) e with
    | (_, .error cause) => Program.report cause
    | (e, .ok ()) =>
      Program.finish e
      return 0
