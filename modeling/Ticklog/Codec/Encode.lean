import Ticklog.Codec.Format
import Ticklog.Level
import Ticklog.Lib.Word
import Ticklog.Ring.Spsc

/-!
# Encoding a record (`src/encode.rs`, `src/record.rs`)

A value that can be logged, its tag, size and payload; the argument list that writes its
tags and payloads behind two cursors; and `assemble`, which stores the header as two
packed words, the site pointer and the count byte, then lets the arguments fill the rest.
A slice is the list of its bytes, an access outside it is `none`; the destination is raw
memory.
-/

namespace Ticklog

open Lib

/-- A value of one of the `Loggable` types. A float is its bits. -/
inductive Loggable where
  | u64 (v : UInt64)
  | i64 (v : Int64)
  | f64 (bits : UInt64)
  | u32 (v : UInt32)
  | i32 (v : Int32)
  | f32 (bits : UInt32)
  | u16 (v : UInt16)
  | i16 (v : Int16)
  | u8 (v : UInt8)
  | i8 (v : Int8)
  | bool (v : Bool)
  | str (s : String)

/-! ## Tags and sizes -/

def tagU64 : Nat := 0x00
def tagI64 : Nat := 0x01
def tagF64 : Nat := 0x02
def tagU32 : Nat := 0x03
def tagI32 : Nat := 0x04
def tagF32 : Nat := 0x05
def tagU16 : Nat := 0x06
def tagI16 : Nat := 0x07
def tagU8 : Nat := 0x08
def tagI8 : Nat := 0x09
def tagBool : Nat := 0x0A
def tagStr : Nat := 0x0B

/-- `FIXED_SIZES`: the payload size of each tag, 0 for strings. -/
def fixedSizes : List Nat := [8, 8, 8, 4, 4, 4, 2, 2, 1, 1, 1, 0]

/-- Bytes of a string's length prefix. -/
def strLenPrefix : Nat := 2

namespace Loggable

def typeTag : Loggable → Nat
  | .u64 _ => tagU64
  | .i64 _ => tagI64
  | .f64 _ => tagF64
  | .u32 _ => tagU32
  | .i32 _ => tagI32
  | .f32 _ => tagF32
  | .u16 _ => tagU16
  | .i16 _ => tagI16
  | .u8 _ => tagU8
  | .i8 _ => tagI8
  | .bool _ => tagBool
  | .str _ => tagStr

def encodedSize : Loggable → Nat
  | .u64 _ | .i64 _ | .f64 _ => 8
  | .u32 _ | .i32 _ | .f32 _ => 4
  | .u16 _ | .i16 _ => 2
  | .u8 _ | .i8 _ | .bool _ => 1
  | .str s => strLenPrefix + (strBytes s).length

/-- `buf[..bytes.len()].copy_from_slice(bytes)`. -/
def copyTo (bytes buf : List UInt8) : Option (List UInt8) :=
  if bytes.length ≤ buf.length then some (bytes ++ buf.drop bytes.length) else none

/-- `Loggable::encode` into `buf`. -/
def encode (buf : List UInt8) : Loggable → Option (List UInt8)
  | .u64 v => copyTo (leBytes 8 v.toNat) buf
  | .i64 v => copyTo (leBytes 8 v.toUInt64.toNat) buf
  | .f64 bits => copyTo (leBytes 8 bits.toNat) buf
  | .u32 v => copyTo (leBytes 4 v.toNat) buf
  | .i32 v => copyTo (leBytes 4 v.toUInt32.toNat) buf
  | .f32 bits => copyTo (leBytes 4 bits.toNat) buf
  | .u16 v => copyTo (leBytes 2 v.toNat) buf
  | .i16 v => copyTo (leBytes 2 v.toUInt16.toNat) buf
  | .u8 v => copyTo (leBytes 1 v.toNat) buf
  | .i8 v => copyTo (leBytes 1 v.toUInt8.toNat) buf
  | .bool v => copyTo [if v then 1 else 0] buf
  | .str s => do
    -- the length, then the bytes behind it
    let buf ← copyTo (leBytes 2 (strBytes s).length) buf
    let rest ← copyTo (strBytes s) (buf.drop 2)
    some (buf.take 2 ++ rest)

end Loggable

/-! ## The argument list -/

/-- `args_encoded_size`. -/
def argsEncodedSize : List Loggable → Nat
  | [] => 0
  | arg :: rest => wrappingAdd arg.encodedSize (argsEncodedSize rest)

/-- `buf[at] = byte`. -/
def setByte (buf : List UInt8) (pos : Nat) (byte : UInt8) : Option (List UInt8) :=
  if pos < buf.length then some (buf.set pos byte) else none

/-- `arg.encode(&mut buf[pay..pay + s])`. -/
def encodeAt (buf : List UInt8) (pay : Nat) (arg : Loggable) : Option (List UInt8) :=
  let s := arg.encodedSize
  if pay + s ≤ buf.length then do
    let window ← arg.encode ((buf.drop pay).take s)
    some (buf.take pay ++ window ++ buf.drop (pay + s))
  else none

/-- `write_args`: a tag at `tag` and a payload at `pay` for each argument. -/
def writeArgs : List Loggable → List UInt8 → Nat → Nat → Option (List UInt8)
  | [], buf, _, _ => some buf
  | arg :: rest, buf, tag, pay => do
    let buf ← setByte buf tag (UInt8.ofNat arg.typeTag)
    let buf ← encodeAt buf pay arg
    writeArgs rest buf (tag + 1) (pay + arg.encodedSize)

/-! ## `assemble` -/

/-- Flag bit: the site section is present. -/
def flagSite : Nat := 0x01
def flagSource : Nat := 0x02
def flagThread : Nat := 0x04
def flagProcess : Nat := 0x08
def flagComplex : Nat := 0x10

/-- Stores `bytes` at `pos`. -/
def store (mem : Nat → UInt8) (pos : Nat) (bytes : List UInt8) : Nat → UInt8 := fun i =>
  if pos ≤ i ∧ i < pos + bytes.length then bytes.getD (i - pos) 0 else mem i

/-- The first header word: version, type, `total_size`, level and flags. -/
def header0 (total level flags : Nat) : Nat :=
  version ||| (logRecord <<< 8) ||| (total <<< 16) ||| (level <<< 32) ||| (flags <<< 40)

/-- `assemble` at the start of `dst`; `site` is the address of the call site's
descriptor. -/
def assemble (dst : Nat → UInt8) (level : Level) (timestamp : UInt64) (flags : Nat)
    (site : UInt64) (nArgs total : Nat) (writeArgs : List UInt8 → Option (List UInt8)) :
    Option (Nat → UInt8) := do
  let dst := store dst 0 (leBytes 8 (header0 (total % 2 ^ 16) level.toU8 flags))
  let dst := store dst 8 (leBytes 8 timestamp.toNat)
  let pos := 16
  let (dst, pos) :=
    if flags &&& flagSite ≠ 0 then (store dst pos (leBytes 8 site.toNat), pos + 8) else (dst, pos)
  let dst := store dst pos [UInt8.ofNat nArgs]
  let pos := pos + 1
  if pos ≤ total then
    let buf ← writeArgs (slice dst pos (total - pos))
    some (store dst pos buf)
  else none

/-- The record a logging macro makes: `total_size` and the closure of its arguments. -/
def totalSize (args : List Loggable) : Nat :=
  wrappingAdd (wrappingAdd baseRecordSize args.length) (argsEncodedSize args)

def assembleLog (dst : Nat → UInt8) (level : Level) (timestamp site : UInt64)
    (args : List Loggable) : Option (Nat → UInt8) :=
  assemble dst level timestamp flagSite site args.length (totalSize args) fun buf =>
    writeArgs args buf 0 args.length

end Ticklog
