import Ticklog.Codec.Encode
import Ticklog.Drain.Cursor

/-!
# Decoding and rendering a record (`src/drain.rs`)

`decode_and_format` reads the header and the flagged sections behind one cursor, and
`render_pattern` walks the line pattern; for `{message}`, `interleave` walks the format
string and reads each placeholder's argument from the cursor as it comes to it. A panic is
`none`. The cursor after the walk is part of the result.

Memory the record points into (`Site` descriptors, file names) and the text of timestamps
are parameters.
-/

namespace Ticklog

open Lib

/-- `Site`: the call site a record points to. -/
structure Site where
  fmt : List UInt8
  file : List UInt8
  line : Nat

/-- What the drain reads besides the record. -/
structure Env where
  std : Std
  /-- The descriptor at an address. -/
  site : Nat → Site
  /-- The file name at an address, of a length. -/
  sourceFile : Nat → Nat → List UInt8
  /-- `format_iso8601` of a raw timestamp, calibrated. -/
  timestamp : Nat → List UInt8

/-- A pattern placeholder's field. -/
inductive Field where
  | timestamp
  | level
  | file
  | line
  | threadName
  | threadId
  | message
deriving DecidableEq, Repr

/-- A part of the line pattern. -/
inductive Segment where
  | lit (s : List UInt8)
  | place (field : Field) (spec : FormatSpec)

/-! ## Arguments -/

section

variable (std : Std)

/-- `data.try_into::<[u8; n]>().expect(..)`. -/
def exactly (n : Nat) (data : List UInt8) : Option Nat :=
  if data.length = n then some (ofLe data) else none

/-- `String::from_utf8_lossy`. -/
def fromUtf8Lossy (data : List UInt8) : String :=
  (String.fromUTF8? ⟨data.toArray⟩).getD (std.lossy data)

/-- `FORMATTERS[tag]` on a payload. -/
def formatter (tag : Nat) (data : List UInt8) (spec : FormatSpec) : Option (List UInt8) :=
  if tag = tagU64 then (exactly 8 data).map fun n => formatUnsigned (UInt64.ofNat n).toNat spec
  else if tag = tagI64 then
    (exactly 8 data).map fun n => formatSigned (UInt64.ofNat n).toInt64.toInt spec
  else if tag = tagF64 then (exactly 8 data).map fun n => formatFloat std (UInt64.ofNat n) spec
  else if tag = tagU32 then
    (exactly 4 data).map fun n => formatUnsigned (UInt32.ofNat n).toNat spec
  else if tag = tagI32 then
    (exactly 4 data).map fun n => formatSigned (UInt32.ofNat n).toInt32.toInt spec
  else if tag = tagF32 then
    (exactly 4 data).map fun n => formatFloat std (std.widen (UInt32.ofNat n)) spec
  else if tag = tagU16 then
    (exactly 2 data).map fun n => formatUnsigned (UInt16.ofNat n).toNat spec
  else if tag = tagI16 then
    (exactly 2 data).map fun n => formatSigned (UInt16.ofNat n).toInt16.toInt spec
  else if tag = tagU8 then data.head?.map fun b => formatUnsigned b.toNat spec
  else if tag = tagI8 then data.head?.map fun b => formatSigned b.toInt8.toInt spec
  else if tag = tagBool then data.head?.map fun b => formatBool (b != 0) spec
  else if tag = tagStr then some (formatStr std (fromUtf8Lossy std data) spec)
  else none

/-- `format_arg`: whether the tag is known, the cursor and the text. -/
def formatArg (tag : Nat) (spec : FormatSpec) (c : Cursor) :
    Option (Bool × Cursor × List UInt8) :=
  if tag = tagStr then
    let r := c.readLenPrefixed
    some (true, r.2, formatStr std (fromUtf8Lossy std r.1.1) spec)
  else
    match fixedSizes[tag]? with
    | some size =>
      let r := c.readBytes size
      (formatter std tag r.1 spec).map fun text => (true, r.2, text)
    | none => some (false, c, [])

/-- `write_unknown_tag`. -/
def unknownTag (tag : Nat) : List UInt8 :=
  let hex (n : Nat) : UInt8 := upper (ascii (Nat.digitChar n))
  strBytes "<unknown tag 0x" ++ [hex (tag / 16), hex (tag % 16)] ++ strBytes ">"

/-! ## The message -/

/-- `interleave` from a position of the format string on, with the next argument's index;
`fuel` bounds its iterations. -/
def interleaveFrom (tags : List UInt8) :
    Nat → List UInt8 → Nat → Bool → Cursor → List UInt8 → Option (Cursor × List UInt8)
  | _, [], _, _, c, buf => some (c, buf)
  | 0, _ :: _, _, _, _, _ => none
  | fuel + 1, b :: rest, argIdx, parseOk, c, buf =>
    if b = openBrace then
      if at? openBrace rest then
        interleaveFrom tags fuel rest.tail argIdx parseOk c (buf ++ [openBrace])
      else
        let spec := parseSpec (rest.takeWhile (· != closeBrace))
        let rest := (rest.dropWhile (· != closeBrace)).tail
        match tags[argIdx]? with
        | some tag =>
          if parseOk then
            match formatArg std tag.toNat spec c with
            | some (true, c, text) =>
              interleaveFrom tags fuel rest (argIdx + 1) true c (buf ++ text)
            | some (false, c, _) =>
              interleaveFrom tags fuel rest (argIdx + 1) false c (buf ++ unknownTag tag.toNat)
            | none => none
          else
            interleaveFrom tags fuel rest (argIdx + 1) parseOk c (buf ++ unknownTag tag.toNat)
        | none =>
          interleaveFrom tags fuel rest (argIdx + 1) parseOk c (buf ++ strBytes "<missing arg>")
    else if b = closeBrace then
      interleaveFrom tags fuel (rest.drop 1) argIdx parseOk c (buf ++ [closeBrace])
    else interleaveFrom tags fuel rest argIdx parseOk c (buf ++ [b])

def interleave (fmt tags : List UInt8) (c : Cursor) (buf : List UInt8) :
    Option (Cursor × List UInt8) :=
  interleaveFrom std tags fmt.length fmt 0 true c buf

end

/-! ## The line -/

/-- What `render_pattern` is given. -/
structure Line where
  timestamp : Nat
  level : Level
  fmt : List UInt8
  fileLine : Option (List UInt8 × Nat)
  threadId : Nat
  threadName : Option String

/-- `Level::as_str`. -/
def Level.asStr : Level → String
  | .error => "ERROR"
  | .warn => "WARN"
  | .info => "INFO"
  | .debug => "DEBUG"
  | .trace => "TRACE"

section

variable (env : Env)

/-- `format::format_str` on bytes that come from a `&str`. -/
def formatBytes (s : List UInt8) (spec : FormatSpec) : List UInt8 :=
  formatStr env.std (fromUtf8Lossy env.std s) spec

/-- `render_pattern`. -/
def renderPattern (line : Line) (tags : List UInt8) :
    List Segment → Cursor → List UInt8 → Option (Cursor × List UInt8)
  | [], c, buf => some (c, buf)
  | .lit s :: rest, c, buf => renderPattern line tags rest c (buf ++ s)
  | .place field spec :: rest, c, buf =>
    match field with
    | .timestamp => renderPattern line tags rest c (buf ++ env.timestamp line.timestamp)
    | .level =>
      renderPattern line tags rest c (buf ++ formatStr env.std line.level.asStr spec)
    | .file =>
      let text := line.fileLine.elim [] fun f => formatBytes env f.1 spec
      renderPattern line tags rest c (buf ++ text)
    | .line =>
      let text := line.fileLine.elim [] fun f => formatUnsigned f.2 spec
      renderPattern line tags rest c (buf ++ text)
    | .threadName =>
      let text := line.threadName.elim [] fun name => formatStr env.std name spec
      renderPattern line tags rest c (buf ++ text)
    | .threadId =>
      let text := strBytes "ThreadId(" ++ formatUnsigned line.threadId spec ++ strBytes ")"
      renderPattern line tags rest c (buf ++ text)
    | .message => do
      let (c, buf) ← interleave env.std line.fmt tags c buf
      renderPattern line tags rest c buf

/-- The legacy thread section: an id and a name, empty for none. -/
def threadSection (c : Cursor) : (Nat × Option String) × Cursor :=
  let id := c.readU64
  let name := id.2.readLenPrefixed
  let text := if name.1.2 > 0 then String.fromUTF8? ⟨name.1.1.toArray⟩ else none
  ((id.1, text), name.2)

/-- `decode_and_format` under the pattern `template`; `ringThreadId` and `ringThreadName`
are the ring's registration. -/
def decodeAndFormat (template : List Segment) (ringThreadId : Nat) (ringThreadName : String)
    (record buf : List UInt8) : Option (Cursor × List UInt8) :=
  let c : Cursor := ⟨record⟩
  -- the header, from the level byte on
  let (levelByte, c) := (c.skip 4).readU8
  let (flags, c) := c.readU16
  let (timestamp, c) := (c.skip 1).readU64
  let level := (Level.fromU8 levelByte).getD .error
  -- the flagged sections, in fixed order
  let (fmt, fileLine, c) :=
    if flags &&& flagSite ≠ 0 then
      let (ptr, c) := c.readU64
      let site := env.site ptr
      (site.fmt, some (site.file, site.line), c)
    else ([], none, c)
  let (fileLine, c) :=
    if flags &&& flagSource ≠ 0 then
      let (ptr, c) := c.readU64
      let (len, c) := c.readU16
      let (line, c) := c.readU32
      (some (env.sourceFile ptr len, line), c)
    else (fileLine, c)
  let ((threadId, nameOverride), c) :=
    if flags &&& flagThread ≠ 0 then threadSection c else ((ringThreadId, none), c)
  let c := if flags &&& flagProcess ≠ 0 then c.skip 4 else c
  let c := if flags &&& flagComplex ≠ 0 then c.skip 8 else c
  -- the argument count and tags
  let (nArgs, c) := c.readU8
  let (tags, c) := c.readBytes nArgs
  renderPattern env ⟨timestamp, level, fmt, fileLine, threadId,
    nameOverride.or (some ringThreadName)⟩ tags template c buf

/-- What `decode_and_format` has read when it comes to the pattern. -/
structure Decoded where
  line : Line
  tags : List UInt8
  /-- Where the argument payloads start. -/
  payload : Cursor

/-- The steps of `decode_and_format` before the pattern. -/
def decodeRecord (ringThreadId : Nat) (ringThreadName : String) (record : List UInt8) :
    Decoded :=
  let c : Cursor := ⟨record⟩
  let (levelByte, c) := (c.skip 4).readU8
  let (flags, c) := c.readU16
  let (timestamp, c) := (c.skip 1).readU64
  let level := (Level.fromU8 levelByte).getD .error
  let (fmt, fileLine, c) :=
    if flags &&& flagSite ≠ 0 then
      let (ptr, c) := c.readU64
      let site := env.site ptr
      (site.fmt, some (site.file, site.line), c)
    else ([], none, c)
  let (fileLine, c) :=
    if flags &&& flagSource ≠ 0 then
      let (ptr, c) := c.readU64
      let (len, c) := c.readU16
      let (line, c) := c.readU32
      (some (env.sourceFile ptr len, line), c)
    else (fileLine, c)
  let ((threadId, nameOverride), c) :=
    if flags &&& flagThread ≠ 0 then threadSection c else ((ringThreadId, none), c)
  let c := if flags &&& flagProcess ≠ 0 then c.skip 4 else c
  let c := if flags &&& flagComplex ≠ 0 then c.skip 8 else c
  let (nArgs, c) := c.readU8
  let (tags, c) := c.readBytes nArgs
  ⟨⟨timestamp, level, fmt, fileLine, threadId, nameOverride.or (some ringThreadName)⟩, tags, c⟩

/-- Reading a record does not fail; the pattern is walked over what was read. -/
theorem decodeAndFormat_eq (template : List Segment) (ringThreadId : Nat)
    (ringThreadName : String) (record buf : List UInt8) :
    decodeAndFormat env template ringThreadId ringThreadName record buf
      = renderPattern env (decodeRecord env ringThreadId ringThreadName record).line
          (decodeRecord env ringThreadId ringThreadName record).tags template
          (decodeRecord env ringThreadId ringThreadName record).payload buf := rfl

end

end Ticklog
