import Bourse.File

/-!
# What can go wrong with a log

Offsets are those of the record in question, counted in bytes from the beginning of the file.
-/

namespace Bourse

/-- Why a log could not be read or written. -/
inductive LogError where
  | file (error : FileError)
  /-- A command has more events than there are positions for. -/
  | tooManyEvents
  /-- The payload is not the one that the checksum was taken of. -/
  | checksumMismatch (offset : Nat)
  /-- The declared length of a payload is beyond the limit. -/
  | payloadTooLarge (offset length limit : Nat)
  /-- The file ends within the header of a record. -/
  | truncatedHeader (offset : Nat)
  /-- The file ends within the payload of a record. -/
  | truncatedPayload (offset : Nat)
deriving DecidableEq, Repr, Inhabited

namespace LogError

/-- Whether the file ends within a record, as it may after a crash. -/
def isTruncation : LogError → Bool
  | truncatedHeader _ => true
  | truncatedPayload _ => true
  | _ => false

/-- Whether there is no file. -/
def isNotFound : LogError → Bool
  | file .notFound => true
  | _ => false

/-- Wording of the error. -/
def message : LogError → String
  | file error => "wal i/o: " ++ error.message
  | tooManyEvents => "wal i/o: too many events in one command"
  | checksumMismatch offset =>
    "wal: checksum mismatch in record at offset " ++ toString offset
  | payloadTooLarge offset length limit =>
    "wal: payload of " ++ toString length ++ " bytes at offset " ++ toString offset ++
      " exceeds limit " ++ toString limit
  | truncatedHeader offset => "wal: truncated header at offset " ++ toString offset
  | truncatedPayload offset => "wal: truncated payload at offset " ++ toString offset

end LogError

end Bourse
