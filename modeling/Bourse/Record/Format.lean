import Bourse.Record.Binary
import Bourse.Record.Csv

/-!
# Formats of records

A log holds records in one of two formats: the compact binary one, or lines of text.
-/

namespace Bourse

/-- How records are written. -/
inductive Format where
  | binary
  | csv
deriving DecidableEq, Repr, Inhabited

namespace Format

/-- Writes a command and its sequence number. -/
def encodeCommand (f : Format) (seq : Seq) (c : Command) : Bytes :=
  match f with
  | binary => Binary.encodeCommand seq c
  | csv => Bytes.ofText (Csv.commandLine seq c)

/-- Writes an event. -/
def encodeEvent (f : Format) (e : Event) : Bytes :=
  match f with
  | binary => Binary.encodeEvent e
  | csv => Bytes.ofText (Csv.eventLine e)

/-- Adds the record of a command to a buffer. -/
def appendCommand (f : Format) (buffer : Bytes) (seq : Seq) (c : Command) : Bytes :=
  match f with
  | binary => Binary.appendCommand buffer seq c
  | csv => buffer ++ Bytes.ofText (Csv.commandLine seq c)

/-- Adds the record of an event to a buffer. -/
def appendEvent (f : Format) (buffer : Bytes) (e : Event) : Bytes :=
  match f with
  | binary => Binary.appendEvent buffer e
  | csv => buffer ++ Bytes.ofText (Csv.eventLine e)

/-- Reads a command and its sequence number. -/
def decodeCommand (f : Format) (b : Bytes) : Except RecordError (Seq × Command) :=
  match f with
  | binary => Binary.decodeCommand b
  | csv =>
    match Bytes.text? b with
    | some line => Csv.readCommand line
    | none => .error (.invalidField "utf-8")

/-- Reads an event. -/
def decodeEvent (f : Format) (b : Bytes) : Except RecordError Event :=
  match f with
  | binary => Binary.decodeEvent b
  | csv =>
    match Bytes.text? b with
    | some line => Csv.readEvent line
    | none => .error (.invalidField "utf-8")

end Format

end Bourse
