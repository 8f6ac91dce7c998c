import Ticklog.Codec.Encode
import Ticklog.Ring.Layout

/-!
# What `assemble` writes (`src/record.rs`, `src/encode.rs`)

`record` is the whole record as one list of bytes: header, site pointer, count, tags,
payloads. `assembleLog` fills memory with exactly that list (`assembleLog_eq`), whatever
the memory held before: the two packed words are the header's fields side by side, and the
two cursors of `write_args` meet their slots exactly.
-/

namespace Ticklog

open Lib

/-! ## An argument's bytes -/

/-- The payload of an argument. -/
def Loggable.payload : Loggable → List UInt8
  | .u64 v => leBytes 8 v.toNat
  | .i64 v => leBytes 8 v.toUInt64.toNat
  | .f64 bits => leBytes 8 bits.toNat
  | .u32 v => leBytes 4 v.toNat
  | .i32 v => leBytes 4 v.toUInt32.toNat
  | .f32 bits => leBytes 4 bits.toNat
  | .u16 v => leBytes 2 v.toNat
  | .i16 v => leBytes 2 v.toUInt16.toNat
  | .u8 v => leBytes 1 v.toNat
  | .i8 v => leBytes 1 v.toUInt8.toNat
  | .bool v => [if v then 1 else 0]
  | .str s => leBytes 2 (strBytes s).length ++ strBytes s

@[simp] theorem Loggable.payload_length (arg : Loggable) :
    arg.payload.length = arg.encodedSize := by
  cases arg <;> simp [payload, encodedSize, strLenPrefix]

/-- A window that is exactly filled. -/
theorem Loggable.copyTo_exact {bytes buf : List UInt8} (h : buf.length = bytes.length) :
    copyTo bytes buf = some bytes := by
  rw [copyTo, if_pos (Nat.le_of_eq h.symm), ← h, List.drop_length, List.append_nil]

/-- An argument encoded into a window of its size overwrites all of it. -/
theorem Loggable.encode_exact {arg : Loggable} {buf : List UInt8}
    (h : buf.length = arg.encodedSize) : arg.encode buf = some arg.payload := by
  cases arg
  case str s =>
    change buf.length = 2 + (strBytes s).length at h
    have hprefix : copyTo (leBytes 2 (strBytes s).length) buf
        = some (leBytes 2 (strBytes s).length ++ buf.drop 2) := by
      rw [copyTo, leBytes_length, if_pos (by omega)]
    have hbody : copyTo (strBytes s) (buf.drop 2) = some (strBytes s) :=
      copyTo_exact (by rw [List.length_drop]; omega)
    have htwo : (leBytes 2 (strBytes s).length).length = 2 := leBytes_length 2 _
    have hdrop : (leBytes 2 (strBytes s).length ++ buf.drop 2).drop 2 = buf.drop 2 :=
      List.drop_left' htwo
    have htake : (leBytes 2 (strBytes s).length ++ buf.drop 2).take 2
        = leBytes 2 (strBytes s).length := List.take_left' htwo
    simp only [encode, hprefix, Option.bind_eq_bind, Option.bind_some, hdrop, hbody, htake]
    rfl
  all_goals exact copyTo_exact (by simpa [encodedSize] using h)

/-! ## The argument list -/

/-- The tags of the arguments. -/
def tagBytes (args : List Loggable) : List UInt8 :=
  args.map fun arg => UInt8.ofNat arg.typeTag

/-- The payloads of the arguments, one after the other. -/
def payloads (args : List Loggable) : List UInt8 := args.flatMap Loggable.payload

/-- The total payload size, as a plain sum. -/
def argsSize (args : List Loggable) : Nat := (args.map Loggable.encodedSize).sum

@[simp] theorem tagBytes_length (args : List Loggable) : (tagBytes args).length = args.length :=
  List.length_map _

@[simp] theorem payloads_length (args : List Loggable) :
    (payloads args).length = argsSize args := by
  induction args with
  | nil => rfl
  | cons arg args ih =>
    change (arg.payload ++ payloads args).length = arg.encodedSize + argsSize args
    rw [List.length_append, ih, Loggable.payload_length]

/-- A sum that fits a word does not wrap. -/
theorem argsEncodedSize_eq {args : List Loggable} (h : argsSize args < wordSize) :
    argsEncodedSize args = argsSize args := by
  induction args with
  | nil => rfl
  | cons arg args ih =>
    change arg.encodedSize + argsSize args < wordSize at h
    change wrappingAdd arg.encodedSize (argsEncodedSize args) = arg.encodedSize + argsSize args
    rw [ih (by omega), wrappingAdd_of_lt h]

/-- The payload window of one argument. -/
theorem encodeAt_window {arg : Loggable} {before window after : List UInt8}
    (h : window.length = arg.encodedSize) :
    encodeAt (before ++ window ++ after) before.length arg
      = some (before ++ arg.payload ++ after) := by
  have htake : (before ++ window ++ after).take before.length = before := by
    rw [List.append_assoc, List.take_left]
  have hwindow : ((before ++ window ++ after).drop before.length).take arg.encodedSize
      = window := by
    rw [List.append_assoc, List.drop_left, ← h, List.take_left]
  have hdrop : (before ++ window ++ after).drop (before.length + arg.encodedSize) = after := by
    rw [← h, ← List.length_append, List.drop_left]
  have hfits : before.length + arg.encodedSize ≤ (before ++ window ++ after).length := by
    rw [List.length_append, List.length_append, h]
    omega
  simp only [encodeAt, if_pos hfits, hwindow, Loggable.encode_exact h, Option.bind_eq_bind,
    Option.bind_some, htake, hdrop]

/-- `write_args` between the tags and payloads already written and the room that is left:
one slot per tag and one window for all the payloads to come. -/
theorem writeArgs_fills (args : List Loggable) (tagsDone paid : List UInt8)
    {slots window : List UInt8} (hslots : slots.length = args.length)
    (hwindow : window.length = argsSize args) :
    writeArgs args (tagsDone ++ slots ++ paid ++ window) tagsDone.length
        (tagsDone.length + slots.length + paid.length)
      = some (tagsDone ++ tagBytes args ++ paid ++ payloads args) := by
  induction args generalizing tagsDone slots paid window with
  | nil =>
    rw [List.length_eq_zero_iff.mp hslots, List.length_eq_zero_iff.mp hwindow]
    rfl
  | cons arg args ih =>
    cases slots with
    | nil => cases hslots
    | cons slot slots =>
      change window.length = arg.encodedSize + argsSize args at hwindow
      have hslots : slots.length = args.length := Nat.succ.inj hslots
      -- the tag goes into the first free slot
      let tagsDone' := tagsDone ++ [UInt8.ofNat arg.typeTag]
      have htag : setByte (tagsDone ++ slot :: slots ++ paid ++ window) tagsDone.length
          (UInt8.ofNat arg.typeTag) = some (tagsDone' ++ slots ++ paid ++ window) := by
        rw [setByte, if_pos (by simp only [List.length_append, List.length_cons]; omega)]
        simp [tagsDone']
      -- the payload takes its size from the front of the window
      let own := window.take arg.encodedSize
      let later := window.drop arg.encodedSize
      have hsplit : window = own ++ later := (List.take_append_drop _ _).symm
      have hpos : tagsDone.length + (slot :: slots).length + paid.length
          = (tagsDone' ++ slots ++ paid).length := by
        simp only [tagsDone', List.length_append, List.length_cons, List.length_nil]
        omega
      have hpay : encodeAt (tagsDone' ++ slots ++ paid ++ window)
          (tagsDone.length + (slot :: slots).length + paid.length) arg
          = some (tagsDone' ++ slots ++ (paid ++ arg.payload) ++ later) := by
        rw [hpos, hsplit, ← List.append_assoc (tagsDone' ++ slots ++ paid), encodeAt_window]
        · simp only [List.append_assoc]
        · rw [List.length_take]
          omega
      have hlater : later.length = argsSize args := by
        rw [List.length_drop]
        omega
      have hnext := ih tagsDone' (paid ++ arg.payload) hslots hlater
      have hcursor : tagsDone.length + (slot :: slots).length + paid.length + arg.encodedSize
          = tagsDone'.length + slots.length + (paid ++ arg.payload).length := by
        rw [hpos]
        simp only [List.length_append, Loggable.payload_length]
        omega
      have htagpos : tagsDone.length + 1 = tagsDone'.length := by
        simp [tagsDone']
      simp only [writeArgs, htag, Option.bind_eq_bind, Option.bind_some, hpay]
      rw [hcursor, htagpos, hnext]
      simp [tagsDone', tagBytes, payloads]

/-! ## The header words -/

theorem header0_eq {total level flags : Nat} (htotal : total < 2 ^ 16) (hlevel : level < 2 ^ 8) :
    header0 total level flags
      = version + 2 ^ 8 * logRecord + 2 ^ 16 * total + 2 ^ 32 * level + 2 ^ 40 * flags := by
  have hversion : version < 2 ^ 8 := by decide
  have hprefix : version + 2 ^ 8 * logRecord < 2 ^ 16 := by decide
  have hsize : version + 2 ^ 8 * logRecord + 2 ^ 16 * total < 2 ^ 32 := by omega
  have hword : version + 2 ^ 8 * logRecord + 2 ^ 16 * total + 2 ^ 32 * level < 2 ^ 40 := by omega
  rw [header0, or_shiftLeft hversion, or_shiftLeft hprefix, or_shiftLeft hsize,
    or_shiftLeft hword]

/-- The first word holds the header's first fields side by side. -/
theorem header0_bytes {total level flags : Nat} (htotal : total < 2 ^ 16) (hlevel : level < 2 ^ 8)
    (hflags : flags < 2 ^ 16) :
    leBytes 8 (header0 total level flags)
      = [UInt8.ofNat version, UInt8.ofNat logRecord] ++ leBytes 2 total ++ leBytes 1 level
        ++ leBytes 2 flags ++ [0] := by
  have hprefix : version + 2 ^ 8 * logRecord < 256 ^ 2 := by decide
  have hpad : leBytes 3 flags = leBytes 2 flags ++ [0] := by
    have h := leBytes_add 2 1 flags 0 hflags
    rwa [Nat.mul_zero, Nat.add_zero] at h
  have hsum : header0 total level flags
      = version + 2 ^ 8 * logRecord + 256 ^ 2 * (total + 256 ^ 2 * (level + 256 ^ 1 * flags)) := by
    rw [header0_eq htotal hlevel]
    ring
  rw [hsum, leBytes_add 2 6 _ _ hprefix, leBytes_add 2 4 _ _ htotal, leBytes_add 1 3 _ _ hlevel,
    hpad]
  simp only [← List.append_assoc]
  rfl

/-! ## Memory -/

/-- Stores that follow each other are one store. -/
theorem store_store (mem : Nat → UInt8) {a b : List UInt8} {pos : Nat} (h : a.length = pos) :
    store (store mem 0 a) pos b = store mem 0 (a ++ b) := by
  subst h
  funext i
  simp only [store, Nat.zero_le, true_and, Nat.zero_add, List.length_append, Nat.sub_zero]
  by_cases hlow : i < a.length
  · have hget : (a ++ b).getD i 0 = a.getD i 0 := by
      simp [List.getD_eq_getElem?_getD, List.getElem?_append_left hlow]
    rw [if_neg (by omega), if_pos hlow, if_pos (by omega), hget]
  · have hget : (a ++ b).getD i 0 = b.getD (i - a.length) 0 := by
      simp [List.getD_eq_getElem?_getD, List.getElem?_append_right (Nat.le_of_not_lt hlow)]
    by_cases hhigh : i < a.length + b.length
    · rw [if_pos (by omega), if_pos hhigh, hget]
    · rw [if_neg (by omega), if_neg hlow, if_neg hhigh]

/-- What was stored can be read. -/
theorem slice_store (mem : Nat → UInt8) (bytes : List UInt8) :
    slice (store mem 0 bytes) 0 bytes.length = bytes := by
  refine slice_eq_of_getD fun i hi => ?_
  rw [store, Nat.zero_add, if_pos (by omega), Nat.sub_zero]

/-- Nothing behind the stored bytes changes. -/
theorem store_outside {mem : Nat → UInt8} {bytes : List UInt8} {i : Nat} (h : bytes.length ≤ i) :
    store mem 0 bytes i = mem i := by
  rw [store, if_neg (by omega)]

/-! ## The record -/

/-- The size of a record, as a plain sum. -/
def recordSize (args : List Loggable) : Nat := baseRecordSize + args.length + argsSize args

theorem totalSize_eq {args : List Loggable} (h : recordSize args ≤ maxRecordSize) :
    totalSize args = recordSize args := by
  unfold recordSize maxRecordSize at h
  have hword : wordSize = 18446744073709551616 := by decide
  have hfixed : wrappingAdd baseRecordSize args.length = baseRecordSize + args.length :=
    wrappingAdd_of_lt (by omega)
  rw [totalSize, argsEncodedSize_eq (by omega), hfixed, wrappingAdd_of_lt (by omega), recordSize]

/-- The bytes of a record in front of its tags. -/
def recordHead (level : Level) (timestamp site : UInt64) (args : List Loggable) : List UInt8 :=
  [UInt8.ofNat version, UInt8.ofNat logRecord] ++ leBytes 2 (recordSize args)
    ++ leBytes 1 level.toU8 ++ leBytes 2 flagSite ++ [0] ++ leBytes 8 timestamp.toNat
    ++ leBytes 8 site.toNat ++ [UInt8.ofNat args.length]

/-- The whole record. -/
def recordBytes (level : Level) (timestamp site : UInt64) (args : List Loggable) : List UInt8 :=
  recordHead level timestamp site args ++ (tagBytes args ++ payloads args)

theorem recordHead_length (level : Level) (timestamp site : UInt64) (args : List Loggable) :
    (recordHead level timestamp site args).length = baseRecordSize := by
  simp [recordHead, baseRecordSize, headerSize, siteSectionSize, countSize]

theorem recordBytes_length (level : Level) (timestamp site : UInt64) (args : List Loggable) :
    (recordBytes level timestamp site args).length = recordSize args := by
  rw [recordBytes, List.length_append, recordHead_length, List.length_append, tagBytes_length,
    payloads_length, recordSize, Nat.add_assoc]

/-- The arguments fill whatever is behind the head. -/
theorem writeArgs_exact {args : List Loggable} {buf : List UInt8}
    (h : buf.length = args.length + argsSize args) :
    writeArgs args buf 0 args.length = some (tagBytes args ++ payloads args) := by
  have hslots : (buf.take args.length).length = args.length := by
    rw [List.length_take]
    omega
  have hwindow : (buf.drop args.length).length = argsSize args := by
    rw [List.length_drop]
    omega
  have hfill := writeArgs_fills args [] [] hslots hwindow
  rw [hslots] at hfill
  simpa using hfill

theorem Level.toU8_lt (level : Level) : level.toU8 < 2 ^ 8 := by
  cases level <;> decide

/-- `assemble` stores the record and nothing else. -/
theorem assembleLog_eq (mem : Nat → UInt8) (level : Level) (timestamp site : UInt64)
    {args : List Loggable} (h : recordSize args ≤ maxRecordSize) :
    assembleLog mem level timestamp site args
      = some (store mem 0 (recordBytes level timestamp site args)) := by
  have hlt : recordSize args < 2 ^ 16 := Nat.lt_succ_of_le h
  -- the stores in front of the arguments make up the head
  have hhead : store (store (store (store mem 0
      (leBytes 8 (header0 (recordSize args) level.toU8 flagSite))) 8 (leBytes 8 timestamp.toNat))
      16 (leBytes 8 site.toNat)) 24 [UInt8.ofNat args.length]
      = store mem 0 (recordHead level timestamp site args) := by
    rw [store_store mem (leBytes_length 8 _), store_store mem (by simp), store_store mem (by simp),
      header0_bytes hlt level.toU8_lt (by decide)]
    rfl
  have hroom : 25 ≤ recordSize args := Nat.le_add_right_of_le (Nat.le_add_right 25 _)
  have hargs : ∀ mem' : Nat → UInt8,
      writeArgs args (slice mem' 25 (recordSize args - 25)) 0 args.length
        = some (tagBytes args ++ payloads args) := by
    intro mem'
    refine writeArgs_exact ?_
    rw [slice_length]
    change 25 + args.length + argsSize args - 25 = _
    omega
  have hflag : flagSite &&& flagSite ≠ 0 := by decide
  have hlast : (recordHead level timestamp site args).length = 25 :=
    recordHead_length level timestamp site args
  unfold assembleLog assemble
  simp only [totalSize_eq h, Nat.mod_eq_of_lt hlt, if_pos hflag, hhead, if_pos hroom, hargs,
    Option.bind_eq_bind, Option.bind_some]
  rw [store_store mem hlast]
  rfl

end Ticklog
