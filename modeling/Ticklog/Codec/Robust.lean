import Ticklog.Codec.Payload
import Ticklog.Codec.Timestamp

/-!
# Decoding an arbitrary record

`decode_and_format` promises infallible formatting, with a placeholder where an argument
cannot be read. That holds for unknown tags and missing arguments. A fixed-width payload that
the record ends in the middle of panics, and a string that it ends in comes out cut or empty
with nothing to say so. `decode_robust_iff` is the exact extent of the promise, over records
of arbitrary bytes.
-/

namespace Ticklog

open Lib

/-! ## The cursor stays in the record -/

theorem readArray_suffix (n : Nat) (c : Cursor) : (c.readArray n).2.rest <:+ c.rest := by
  unfold Cursor.readArray
  split
  · exact List.suffix_refl _
  · exact List.drop_suffix _ _

theorem readU8_suffix (c : Cursor) : c.readU8.2.rest <:+ c.rest := readArray_suffix 1 c

theorem readU16_suffix (c : Cursor) : c.readU16.2.rest <:+ c.rest := readArray_suffix 2 c

theorem readU32_suffix (c : Cursor) : c.readU32.2.rest <:+ c.rest := readArray_suffix 4 c

theorem readU64_suffix (c : Cursor) : c.readU64.2.rest <:+ c.rest := readArray_suffix 8 c

theorem skip_suffix (n : Nat) (c : Cursor) : (c.skip n).rest <:+ c.rest := List.drop_suffix _ _

theorem readBytes_suffix (n : Nat) (c : Cursor) : (c.readBytes n).2.rest <:+ c.rest :=
  List.drop_suffix _ _

theorem readLenPrefixed_suffix (c : Cursor) : c.readLenPrefixed.2.rest <:+ c.rest :=
  (readBytes_suffix _ _).trans (readU16_suffix c)

theorem threadSection_suffix (c : Cursor) : (threadSection c).2.rest <:+ c.rest :=
  (readLenPrefixed_suffix _).trans (readU64_suffix c)

/-- An optional section keeps the cursor inside too. -/
theorem ite_suffix {p : Prop} [Decidable p] {α : Type} {x y : α × Cursor} {record : List UInt8}
    (hx : x.2.rest <:+ record) (hy : y.2.rest <:+ record) :
    (if p then x else y).2.rest <:+ record := by
  split
  · exact hx
  · exact hy

theorem skip_ite_suffix {p : Prop} [Decidable p] {n : Nat} {c : Cursor} {record : List UInt8}
    (hc : c.rest <:+ record) : (if p then c.skip n else c).rest <:+ record := by
  split
  · exact (skip_suffix n c).trans hc
  · exact hc

/-- The payloads start inside the record. -/
theorem decodeRecord_suffix (env : Env) (ringThreadId : Nat) (ringThreadName : String)
    (record : List UInt8) :
    (decodeRecord env ringThreadId ringThreadName record).payload.rest <:+ record := by
  have hlevel := (readU8_suffix (Cursor.skip 4 ⟨record⟩)).trans (skip_suffix 4 ⟨record⟩)
  have hflags := (readU16_suffix (Cursor.readU8 (Cursor.skip 4 ⟨record⟩)).2).trans hlevel
  have htime := (readU64_suffix _).trans ((skip_suffix 1 _).trans hflags)
  unfold decodeRecord
  refine (readBytes_suffix _ _).trans ((readU8_suffix _).trans ?_)
  apply skip_ite_suffix
  apply skip_ite_suffix
  have hthread : ∀ {p : Prop} [Decidable p] {c : Cursor}, c.rest <:+ record →
      (if p then threadSection c else ((ringThreadId, none), c)).2.rest <:+ record :=
    fun hc => ite_suffix ((threadSection_suffix _).trans hc) hc
  apply hthread
  have hsource : ∀ {p : Prop} [Decidable p] {s : List UInt8 × Option (List UInt8 × Nat) × Cursor},
      s.2.2.rest <:+ record →
      (if p then
          (some (env.sourceFile s.2.2.readU64.1 s.2.2.readU64.2.readU16.1,
            s.2.2.readU64.2.readU16.2.readU32.1), s.2.2.readU64.2.readU16.2.readU32.2)
        else (s.2.1, s.2.2)).2.rest <:+ record :=
    fun hs => ite_suffix ((readU32_suffix _).trans ((readU16_suffix _).trans
      ((readU64_suffix _).trans hs))) hs
  apply hsource
  split
  · exact (readU64_suffix _).trans htime
  · exact htime

theorem formatArg_suffix {std : Std} {tag : Nat} {spec : FormatSpec} {bytes rest text : List UInt8}
    (h : formatArg std tag spec ⟨bytes⟩ = some (true, ⟨rest⟩, text)) : rest <:+ bytes := by
  unfold formatArg at h
  split at h
  · cases h
    exact readLenPrefixed_suffix ⟨bytes⟩
  · split at h
    · obtain ⟨text', -, heq⟩ := Option.map_eq_some_iff.mp h
      cases heq
      exact readBytes_suffix _ ⟨bytes⟩
    · cases h

theorem Shown.suffix {std : Std} {tags bytes out left : List UInt8} {ok : Bool} {ps : List Piece}
    (h : Shown std tags ok bytes ps out left) : left <:+ bytes := by
  induction h with
  | done => exact List.suffix_refl _
  | text _ ih => exact ih
  | missing _ ih => exact ih
  | value _ hformat _ ih => exact ih.trans (formatArg_suffix hformat)
  | unknown _ _ _ ih => exact ih
  | unread _ ih => exact ih

theorem LineShown.suffix {env : Env} {line : Line} {tags bytes out left : List UInt8}
    {template : List Segment} (h : LineShown env line tags template bytes out left) :
    left <:+ bytes := by
  induction h with
  | done => exact List.suffix_refl _
  | lit _ ih => exact ih
  | field _ _ ih => exact ih
  | message _ hmsg _ ih => exact ih.trans hmsg.suffix

/-! ## When a line comes out -/

/-- For a record of any bytes whose call site is valid, under any accepted pattern: the
decoder returns, staying inside the record, with a line that shows the pattern's and the
format string's literals in order and for a placeholder its whole argument or the text that
stands for it, exactly when the pattern leaves the message out or no payload the message
reads is cut short. -/
theorem decode_robust_iff (std : Std) (site : Nat → Site) (sourceFile : Nat → Nat → List UInt8)
    (toNs : Nat → Nat) (offset : Int) {pattern : String} {template : List Segment} {n : Nat}
    (ringThreadId : Nat) (ringThreadName : String) (record : List UInt8) {decoded : Decoded}
    (hpattern : parseTemplate (strBytes pattern) = .ok template)
    (hdecoded : decodeRecord (drainEnv std site sourceFile toNs offset) ringThreadId ringThreadName
      record = decoded)
    (hfmt : validateFmt decoded.line.fmt = .ok n) :
    (∃ line left, decodeAndFormat (drainEnv std site sourceFile toNs offset) template ringThreadId
        ringThreadName record [] = some (⟨left⟩, line) ∧ left <:+ record ∧
        LineShown (drainEnv std site sourceFile toNs offset) decoded.line decoded.tags template
          decoded.payload.rest line left)
      ↔ messages template = 0 ∨ intact n decoded.tags decoded.payload.rest = true := by
  obtain ⟨-, hone⟩ := parseTemplate_text hpattern (utf8_toByteArray pattern)
  obtain ⟨ps, hreads, rfl⟩ := validateFmt_reads hfmt
  rw [decodeAndFormat_eq, hdecoded]
  constructor
  · rintro ⟨line, left, -, -, hshown⟩
    rcases Nat.eq_zero_or_pos (messages template) with hzero | hmessage
    · exact Or.inl hzero
    · exact Or.inr (hshown.intact hreads hmessage)
  · intro hintact
    obtain ⟨out, left, hrun, hshown⟩ := renderPattern_shown
      (drainEnv std site sourceFile toNs offset) hreads hone [] hintact
    have hstart : decoded.payload.rest <:+ record := hdecoded ▸ decodeRecord_suffix _ _ _ record
    exact ⟨out, left, hrun, hshown.suffix.trans hstart, hshown⟩

/-- A record that ends three bytes into its only argument, a `u64`. -/
def shortPayload : List UInt8 :=
  [UInt8.ofNat version, UInt8.ofNat logRecord, 29, 0, 2, 1, 0, 0] ++ leBytes 8 5 ++ leBytes 8 4096
    ++ [1, 0x00] ++ [1, 2, 3]

/-- A drain under the pattern that is just the message, every call site logging one argument. -/
def oneArgumentEnv : Env :=
  drainEnv ⟨fun _ _ => [], fun _ _ _ => [], fun _ _ => [], fun bits => bits.toUInt64, fun _ _ => [],
    fun _ => ""⟩ (fun _ => ⟨strBytes "x = \x7b\x7d", [], 1⟩) (fun _ _ => []) id 0

/-- The decoder panics on it. -/
theorem shortPayload_panics :
    ¬ ∀ record : List UInt8, headerSize ≤ record.length →
      validateFmt (decodeRecord oneArgumentEnv 1 "main" record).line.fmt = .ok 1 →
      (decodeAndFormat oneArgumentEnv [.place .message FormatSpec.default] 1 "main" record
        []).isSome = true := by
  intro h
  have hpanic : (decodeAndFormat oneArgumentEnv [.place .message FormatSpec.default] 1 "main"
      shortPayload []).isSome = false := by decide
  rw [h shortPayload (by decide) (by decide)] at hpanic
  cases hpanic

/-- A string of which one byte of five is left is shown as that byte, and one without its
length as nothing. -/
example : (decodeAndFormat oneArgumentEnv [.place .message FormatSpec.default] 1 "main"
    (shortPayload.take 24 ++ [1, 0x0B, 5, 0, 104]) []).map Prod.snd = some (strBytes "x = h") := by
  decide

example : (decodeAndFormat oneArgumentEnv [.place .message FormatSpec.default] 1 "main"
    (shortPayload.take 24 ++ [1, 0x0B]) []).map Prod.snd = some (strBytes "x = ") := by
  decide

/-- The same record with the argument whole. -/
theorem decode_robust_wholePayload :
    ∃ line left, decodeAndFormat oneArgumentEnv [.place .message FormatSpec.default] 1 "main"
        (shortPayload ++ [4, 5, 6, 7, 8]) [] = some (⟨left⟩, line) := by
  have hpattern : parseTemplate (strBytes "\x7bmessage\x7d")
      = .ok [.place .message FormatSpec.default] := rfl
  have hfmt : validateFmt (decodeRecord oneArgumentEnv 1 "main"
      (shortPayload ++ [4, 5, 6, 7, 8])).line.fmt = .ok 1 := by decide
  obtain ⟨line, left, hrun, -⟩ :=
    (decode_robust_iff _ _ _ _ _ 1 "main" _ hpattern rfl hfmt).mpr (Or.inr (by decide))
  exact ⟨line, left, hrun⟩

end Ticklog
