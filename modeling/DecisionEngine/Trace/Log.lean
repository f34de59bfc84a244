import DecisionEngine.Trace.Decode
/-!
# Trace logs

Trace records are appended to a log and found again by their ids. A log in memory keeps the
records; a log in a file keeps their bytes, each behind its length in four bytes. Where an id was
used more than once, a log in memory finds the latest record, and a log in a file the earliest.
-/

namespace DecisionEngine

/-! ## Logs in memory -/

/-- Records in the order in which they were emitted. -/
structure MemoryLog where
  records : List TraceRecord

namespace MemoryLog

/-- The log without records. -/
def empty : MemoryLog := ⟨[]⟩

/-- Appends a record. -/
def emit (l : MemoryLog) (r : TraceRecord) : MemoryLog := ⟨l.records ++ [r]⟩

/-- The latest record of an id. -/
def find? (l : MemoryLog) (traceId : Bytes) : Option TraceRecord :=
  l.records.reverse.find? (·.traceId == traceId)

end MemoryLog

/-! ## Logs in files -/

/-- Why a file cannot be read as a log. -/
inductive FileLogError
  | cannotOpen (path : Bytes)
  | unreadable (e : Wire.Error)
  deriving DecidableEq

/-- The wording of the reason. -/
def FileLogError.message : FileLogError → Bytes
  | cannotOpen path => utf8 "Cannot open trace log " ++ path
  | unreadable e => e.message

/-- A file that records are appended to; there are no contents where it cannot be opened. -/
structure FileLog where
  path : Bytes
  contents : Option Bytes

/-- The bytes that a record takes in a file: its length in four bytes, then its own. -/
def TraceRecord.framed (r : TraceRecord) : Bytes :=
  Wire.littleEndian 4 r.encode.length ++ r.encode

/-- The records in the contents of a file from a position on. -/
def TraceRecord.readFramed (position : Nat) (rest : Bytes) :
    Except Wire.Error (List TraceRecord) :=
  match rest with
  | [] => .ok []
  | [_] | [_, _] | [_, _, _] => .error ⟨.malformed .truncatedLength, position⟩
  | a :: b :: c :: d :: tail => do
    let length := Wire.Reader.ofLittleEndian [a, b, c, d]
    if tail.length < length then throw ⟨.malformed .truncatedRecord, position + 4⟩
    else
      let r ← TraceRecord.decode (tail.take length)
      let others ← readFramed (position + 4 + length) (tail.drop length)
      return r :: others
termination_by rest.length
decreasing_by simp only [List.length_cons, List.length_drop]; omega

namespace FileLog

/-- Opens a file for appending: what it holds stays, and a file that is not there comes into
being. -/
def opened (path : Bytes) (file : Option Bytes) : FileLog := ⟨path, some (file.getD [])⟩

/-- Appends a record. -/
def emit (f : FileLog) (r : TraceRecord) : Except FileLogError FileLog :=
  match f.contents with
  | none => .error (.cannotOpen f.path)
  | some bytes => .ok { f with contents := some (bytes ++ r.framed) }

/-- All records, in the order in which they were emitted. -/
def readAll (f : FileLog) : Except FileLogError (List TraceRecord) :=
  match f.contents with
  | none => .error (.cannotOpen f.path)
  | some bytes => (TraceRecord.readFramed 0 bytes).mapError .unreadable

/-- The earliest record of an id. -/
def find? (f : FileLog) (traceId : Bytes) : Except FileLogError (Option TraceRecord) := do
  return (← f.readAll).find? (·.traceId == traceId)

end FileLog
end DecisionEngine
