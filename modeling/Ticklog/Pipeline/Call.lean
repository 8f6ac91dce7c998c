import Ticklog.Codec.Macro
import Ticklog.Codec.PatternGrammar
import Ticklog.Drain.Modes

/-!
# What a logging call means (`src/macros.rs`, `src/drain.rs`)

A call that compiled names a site whose format string takes exactly its arguments. Its
meaning is a line: the parts of the configured pattern one after the other, with the call's
level and timestamp, the site's file and line, the thread's id and name, and for the message
the pieces of the format string, each placeholder replaced by its argument under the
placeholder's spec (`Call.Shows`).

The macro turns the call into bytes and `decode_and_format` turns bytes into a line.
`Call.formats` says that the two compose to the meaning, under any pattern.
-/

namespace Ticklog.Pipeline

open Lib

/-- A call of a logging macro, as it comes to `dispatch`. -/
structure Call (env : Env) where
  level : Level
  timestamp : UInt64
  site : UInt64
  args : List Loggable
  /-- `check_fmt` accepted the site's format string for these arguments. -/
  checked : validateFmt (env.site site.toNat).fmt = .ok args.length
  /-- Their number survives `as u8`. -/
  counted : args.length ≤ 255
  /-- Their size is a `usize`. -/
  sized : recordSize args < wordSize

/-- What a ring carries of its thread: `set_thread_info`. -/
structure ThreadInfo where
  id : Nat
  name : String
deriving DecidableEq, Repr

namespace Call

variable {env : Env} (c : Call env)

/-- What `render_pattern` is to be given for the call. -/
def line (thread : ThreadInfo) : Line where
  timestamp := c.timestamp.toNat
  level := c.level
  fmt := (env.site c.site.toNat).fmt
  fileLine := some ((env.site c.site.toNat).file, (env.site c.site.toNat).line)
  threadId := thread.id
  threadName := some thread.name

/-- `item` is the call's line under the pattern of these parts, with the call's level. -/
def Shows (thread : ThreadInfo) (parts : List Part) (item : List UInt8 × Level) : Prop :=
  ∃ ps, Reads (env.site c.site.toNat).fmt ps ∧ placeholders ps = c.args.length ∧
    item = (expand env (c.line thread) (render env.std ps c.args) parts, c.level)

/-- A call has one line. -/
theorem Shows.unique {thread : ThreadInfo} {parts : List Part} {item item' : List UInt8 × Level}
    (h : c.Shows thread parts item) (h' : c.Shows thread parts item') : item = item' := by
  obtain ⟨ps, hreads, -, rfl⟩ := h
  obtain ⟨ps', hreads', -, rfl⟩ := h'
  rw [hreads.unique hreads']

/-! ## The call's bytes -/

/-- The record the call is to become. -/
def record : List UInt8 := recordBytes c.level c.timestamp c.site c.args

theorem record_length : c.record.length = recordSize c.args :=
  recordBytes_length c.level c.timestamp c.site c.args

/-- `__total_size` is the size of the record: nothing wraps. -/
theorem macroTotalSize_eq : macroTotalSize c.args = recordSize c.args := by
  have hsized := c.sized
  unfold recordSize at hsized
  have hfixed : wrappingAdd baseRecordSize c.args.length = baseRecordSize + c.args.length :=
    wrappingAdd_of_lt (by omega)
  rw [macroTotalSize, nArgs_eq c.counted, argsEncodedSize_eq (by omega), hfixed,
    wrappingAdd_of_lt hsized, recordSize]

/-- Past the size gate the macro stores the record over whatever the slot held. -/
theorem logMacro_record (hgate : macroTotalSize c.args ≤ maxRecordSize) (dst : Nat → UInt8) :
    logMacro dst c.level c.timestamp c.site c.args = some (some (store dst 0 c.record)) := by
  have hsize : recordSize c.args ≤ maxRecordSize := by
    rw [← c.macroTotalSize_eq]
    exact hgate
  have hassemble := assembleLog_eq dst c.level c.timestamp c.site hsize
  unfold assembleLog at hassemble
  rw [logMacro_assemble (Nat.not_lt.mpr hgate), nArgs_eq c.counted, c.macroTotalSize_eq,
    ← totalSize_eq hsize, hassemble]
  rfl

theorem levelOf_record : levelOf c.record = c.level := by
  have hbyte : c.record[4]? = some (UInt8.ofNat c.level.toU8) := by
    unfold record
    rw [recordBytes_eq, List.getElem?_append_right (by simp)]
    simp [leBytes]
  unfold levelOf
  rw [hbyte]
  show (Level.fromU8 (UInt8.ofNat c.level.toU8).toNat).getD .error = c.level
  cases c.level <;> rfl

/-! ## From the bytes back -/

/-- The decoder reads back the line's fields, the tags and where the payloads start. -/
theorem decodeRecord_record (thread : ThreadInfo) :
    decodeRecord env thread.id thread.name c.record
      = ⟨c.line thread, tagBytes c.args, ⟨payloads c.args ++ []⟩⟩ := by
  have hsite : flagSite &&& flagSite ≠ 0 := by decide
  have hsource : ¬ flagSite &&& flagSource ≠ 0 := by decide
  have hthread : ¬ flagSite &&& flagThread ≠ 0 := by decide
  have hprocess : ¬ flagSite &&& flagProcess ≠ 0 := by decide
  have hcomplex : ¬ flagSite &&& flagComplex ≠ 0 := by decide
  have hskip : ([UInt8.ofNat version, UInt8.ofNat logRecord]
      ++ leBytes 2 (recordSize c.args)).length = 4 := by
    simp
  have htags : Cursor.readBytes c.args.length ⟨tagBytes c.args ++ (payloads c.args ++ [])⟩
      = (tagBytes c.args, ⟨payloads c.args ++ []⟩) := by
    rw [Cursor.readBytes, List.take_left' (tagBytes_length c.args),
      List.drop_left' (tagBytes_length c.args)]
  have hlevel : (Level.fromU8 c.level.toU8).getD .error = c.level := by
    cases c.level <;> rfl
  unfold record
  rw [recordBytes_eq]
  unfold decodeRecord
  simp only [skip_append hskip, readU8_leBytes c.level.toU8_lt,
    readU16_leBytes (show flagSite < 2 ^ 16 by decide), skip_append (n := 1) List.length_singleton,
    readU64_leBytes, readU8_leBytes (Nat.lt_succ_of_le c.counted), if_pos hsite, if_neg hsource,
    if_neg hthread, if_neg hprocess, if_neg hcomplex, htags, hlevel]
  rfl

/-- The message the pattern asks for is the format string filled in, or nothing where the
pattern has none; either way the expansion is the call's. -/
theorem message_record (thread : ThreadInfo) (parts : List Part) {ps : List Piece}
    (hreads : Reads (env.site c.site.toNat).fmt ps) (hcount : placeholders ps = c.args.length)
    (hsize : argsSize c.args ≤ maxRecordSize) :
    ∃ cursor message,
      messageOf env (c.line thread) (tagBytes c.args) parts ⟨payloads c.args ++ []⟩
        = some (cursor, message) ∧
      expand env (c.line thread) message parts
        = expand env (c.line thread) (render env.std ps c.args) parts := by
  unfold messageOf
  by_cases hany : parts.any Part.isMessage = true
  · have hwalk : interleave env.std (c.line thread).fmt (tagBytes c.args)
        ⟨payloads c.args ++ []⟩ [] = some (⟨[]⟩, [] ++ render env.std ps c.args) :=
      interleave_reads env.std hreads hcount hsize
    rw [if_pos hany]
    exact ⟨_, _, hwalk, rfl⟩
  · rw [if_neg hany]
    have hnone : parts.any Part.isMessage = false := by
      simpa using hany
    refine ⟨_, _, rfl, ?_⟩
    rw [expand_noMessage env (c.line thread) hnone []]
    exact (expand_noMessage env (c.line thread) hnone _).symm

/-- **Formatting a call's record gives the call's line**, whatever the accepted pattern. -/
theorem formats {pattern : LinePattern} {parts : List Part}
    (hread : ReadAs (strBytes pattern.text) parts) (thread : ThreadInfo)
    (hsize : recordSize c.args ≤ maxRecordSize) :
    ∃ cursor text,
      decodeAndFormat env pattern.template thread.id thread.name c.record []
        = some (cursor, text) ∧
      c.Shows thread parts (text, levelOf c.record) := by
  obtain ⟨ps, hreads, hcount⟩ := validateFmt_reads c.checked
  have hargs : argsSize c.args ≤ maxRecordSize := Nat.le_trans (Nat.le_add_left _ _) hsize
  obtain ⟨cursor, message, hmessage, hexpand⟩ :=
    c.message_record thread parts hreads hcount hargs
  have htemplate : pattern.template = segmentsOf [] parts := by
    have hparse := pattern.parsed
    rw [hread.parse] at hparse
    exact (Except.ok.inj hparse).symm
  refine ⟨cursor, expand env (c.line thread) message parts, ?_, ps, hreads, hcount, ?_⟩
  · rw [decodeAndFormat_eq, c.decodeRecord_record thread, htemplate,
      renderPattern_parts env _ _ hread.1.2, hmessage]
    rfl
  · rw [hexpand, c.levelOf_record]

end Call

end Ticklog.Pipeline
