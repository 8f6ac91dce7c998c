import Ticklog.Lib.Bytes

/-!
# The wire record: layout constants (`src/record.rs`)

The record is a 16-byte header (`version u8 | type u8 | total_size u16 | level u8 |
flags u16 | pad u8 | timestamp u64`, little-endian) followed by the sections its
flags select.
-/

namespace Ticklog

/-- Record format version written in byte 0 of every header. -/
def version : Nat := 0x02

/-- Record type: a normal encoded log record. -/
def logRecord : Nat := 1

/-- Record type: filler written before a ring wrap. -/
def endOfBuffer : Nat := 2

/-- Fixed record header size in bytes. -/
def headerSize : Nat := 1 + 1 + 2 + 1 + 2 + 1 + 8

/-- Encoded size of the site section: an 8-byte pointer to a `Site`. -/
def siteSectionSize : Nat := 8

/-- Size of the argument count byte. -/
def countSize : Nat := 1

/-- Total size of a record's fixed sections, before any arguments. -/
def baseRecordSize : Nat := headerSize + siteSectionSize + countSize

/-- Largest record the `u16` `total_size` header field can frame. -/
def maxRecordSize : Nat := 65535

end Ticklog
