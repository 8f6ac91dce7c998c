import Ticklog.Codec.Agree
import Ticklog.Codec.Assemble
import Ticklog.Codec.SpecGrammar

/-!
# The codec round trip

What `assemble` writes, `decode_and_format` renders: the text of the format string with
its escapes undone, and for the `k`-th placeholder the `k`-th argument under its own
type's formatter.

The two sides meet twice: each argument's payload is read back by the formatter of its tag
(`formatArg_payload`), and the drain's walk over the format string is proved against the
grammar `Reads`, which the validator's acceptance also implies, as it does a derivation of each
placeholder's spec (`Reads.asksFor`).
-/

namespace Ticklog

open Lib

/-! ## Reading back a payload -/

section

variable (std : Std)

/-- An argument formatted by its own type's formatter. -/
def Loggable.formatted (spec : FormatSpec) : Loggable → List UInt8
  | .u64 v => formatUnsigned v.toNat spec
  | .i64 v => formatSigned v.toInt spec
  | .f64 bits => formatFloat std bits spec
  | .u32 v => formatUnsigned v.toNat spec
  | .i32 v => formatSigned v.toInt spec
  | .f32 bits => formatFloat std (std.widen bits) spec
  | .u16 v => formatUnsigned v.toNat spec
  | .i16 v => formatSigned v.toInt spec
  | .u8 v => formatUnsigned v.toNat spec
  | .i8 v => formatSigned v.toInt spec
  | .bool v => formatBool v spec
  | .str s => formatStr std s spec

/-- The bytes of a string decode to it. -/
theorem fromUtf8Lossy_strBytes (s : String) : fromUtf8Lossy std (strBytes s) = s := by
  have hbytes : (⟨(strBytes s).toArray⟩ : ByteArray) = s.toByteArray := by
    simp [strBytes]
  have hvalid : s.toByteArray.IsValidUTF8 := s.isValidUTF8
  rw [fromUtf8Lossy, hbytes, String.fromUTF8?, dif_pos hvalid]
  rfl

theorem exactly_leBytes {w n : Nat} (h : n < 256 ^ w) : exactly w (leBytes w n) = some n := by
  rw [exactly, if_pos (leBytes_length w n), ofLe_leBytes_of_lt h]

/-- A fixed-size argument's payload under the formatter of its tag. -/
theorem formatter_payload (arg : Loggable) (spec : FormatSpec)
    (h : arg.typeTag ≠ tagStr) :
    formatter std arg.typeTag arg.payload spec = some (arg.formatted std spec) := by
  have hword : ∀ v : UInt64, exactly 8 (leBytes 8 v.toNat) = some v.toNat :=
    fun v => exactly_leBytes v.toNat_lt
  have hhalf : ∀ v : UInt32, exactly 4 (leBytes 4 v.toNat) = some v.toNat :=
    fun v => exactly_leBytes v.toNat_lt
  have hquarter : ∀ v : UInt16, exactly 2 (leBytes 2 v.toNat) = some v.toNat :=
    fun v => exactly_leBytes v.toNat_lt
  have hbyte : ∀ v : UInt8, leBytes 1 v.toNat = [v] := by
    intro v
    simp [leBytes]
  cases arg with
  | u64 v =>
    change (exactly 8 (leBytes 8 v.toNat)).map
      (fun n => formatUnsigned (UInt64.ofNat n).toNat spec) = _
    rw [hword, Option.map_some, UInt64.ofNat_toNat, Loggable.formatted]
  | i64 v =>
    change (exactly 8 (leBytes 8 v.toUInt64.toNat)).map
      (fun n => formatSigned (UInt64.ofNat n).toInt64.toInt spec) = _
    rw [hword, Option.map_some, UInt64.ofNat_toNat, Int64.toInt64_toUInt64, Loggable.formatted]
  | f64 bits =>
    change (exactly 8 (leBytes 8 bits.toNat)).map
      (fun n => formatFloat std (UInt64.ofNat n) spec) = _
    rw [hword, Option.map_some, UInt64.ofNat_toNat, Loggable.formatted]
  | u32 v =>
    change (exactly 4 (leBytes 4 v.toNat)).map
      (fun n => formatUnsigned (UInt32.ofNat n).toNat spec) = _
    rw [hhalf, Option.map_some, UInt32.ofNat_toNat, Loggable.formatted]
  | i32 v =>
    change (exactly 4 (leBytes 4 v.toUInt32.toNat)).map
      (fun n => formatSigned (UInt32.ofNat n).toInt32.toInt spec) = _
    rw [hhalf, Option.map_some, UInt32.ofNat_toNat, Int32.toInt32_toUInt32, Loggable.formatted]
  | f32 bits =>
    change (exactly 4 (leBytes 4 bits.toNat)).map
      (fun n => formatFloat std (std.widen (UInt32.ofNat n)) spec) = _
    rw [hhalf, Option.map_some, UInt32.ofNat_toNat, Loggable.formatted]
  | u16 v =>
    change (exactly 2 (leBytes 2 v.toNat)).map
      (fun n => formatUnsigned (UInt16.ofNat n).toNat spec) = _
    rw [hquarter, Option.map_some, UInt16.ofNat_toNat, Loggable.formatted]
  | i16 v =>
    change (exactly 2 (leBytes 2 v.toUInt16.toNat)).map
      (fun n => formatSigned (UInt16.ofNat n).toInt16.toInt spec) = _
    rw [hquarter, Option.map_some, UInt16.ofNat_toNat, Int16.toInt16_toUInt16, Loggable.formatted]
  | u8 v =>
    change (leBytes 1 v.toNat).head?.map (fun b => formatUnsigned b.toNat spec) = _
    rw [hbyte, List.head?_cons, Option.map_some, Loggable.formatted]
  | i8 v =>
    change (leBytes 1 v.toUInt8.toNat).head?.map (fun b => formatSigned b.toInt8.toInt spec) = _
    rw [hbyte, List.head?_cons, Option.map_some, Int8.toInt8_toUInt8, Loggable.formatted]
  | bool v => cases v <;> rfl
  | str s => exact absurd rfl h

theorem fixedSizes_typeTag {arg : Loggable} (h : arg.typeTag ≠ tagStr) :
    fixedSizes[arg.typeTag]? = some arg.encodedSize := by
  cases arg with
  | str s => exact absurd rfl h
  | _ => rfl

theorem readArray_append {n : Nat} {bytes : List UInt8} (h : bytes.length = n)
    (rest : List UInt8) : Cursor.readArray n ⟨bytes ++ rest⟩ = (bytes, ⟨rest⟩) := by
  have hroom : ¬ (bytes ++ rest).length < n := by
    rw [List.length_append]
    omega
  rw [Cursor.readArray, if_neg hroom, List.take_left' h, List.drop_left' h]

theorem readU8_leBytes {n : Nat} (h : n < 2 ^ 8) (rest : List UInt8) :
    Cursor.readU8 ⟨leBytes 1 n ++ rest⟩ = (n, ⟨rest⟩) := by
  rw [Cursor.readU8, readArray_append (leBytes_length 1 n), ofLe_leBytes_of_lt h]

theorem readU16_leBytes {n : Nat} (h : n < 2 ^ 16) (rest : List UInt8) :
    Cursor.readU16 ⟨leBytes 2 n ++ rest⟩ = (n, ⟨rest⟩) := by
  rw [Cursor.readU16, readArray_append (leBytes_length 2 n), ofLe_leBytes_of_lt h]

theorem readU64_leBytes (v : UInt64) (rest : List UInt8) :
    Cursor.readU64 ⟨leBytes 8 v.toNat ++ rest⟩ = (v.toNat, ⟨rest⟩) := by
  rw [Cursor.readU64, readArray_append (leBytes_length 8 _), ofLe_leBytes_of_lt v.toNat_lt]

theorem skip_append {n : Nat} {bytes : List UInt8} (h : bytes.length = n) (rest : List UInt8) :
    Cursor.skip n ⟨bytes ++ rest⟩ = ⟨rest⟩ := by
  rw [Cursor.skip, List.drop_left' h]

/-- An argument's tag and payload give its text, and the cursor stands behind the payload. -/
theorem formatArg_payload (arg : Loggable) (spec : FormatSpec) (rest : List UInt8)
    (hsize : arg.encodedSize ≤ maxRecordSize) :
    formatArg std arg.typeTag spec ⟨arg.payload ++ rest⟩
      = some (true, ⟨rest⟩, arg.formatted std spec) := by
  by_cases htag : arg.typeTag = tagStr
  · obtain ⟨s, rfl⟩ : ∃ s, arg = .str s := by
      cases arg with
      | str s => exact ⟨s, rfl⟩
      | _ => cases htag
    change strLenPrefix + (strBytes s).length ≤ maxRecordSize at hsize
    have hlen : (strBytes s).length < 2 ^ 16 := by
      unfold maxRecordSize at hsize
      omega
    have hread : Cursor.readLenPrefixed ⟨leBytes 2 (strBytes s).length ++ strBytes s ++ rest⟩
        = ((strBytes s, (strBytes s).length), ⟨rest⟩) := by
      rw [List.append_assoc, Cursor.readLenPrefixed, readU16_leBytes hlen]
      simp only [Cursor.readBytes, List.take_left, List.drop_left]
    simp only [formatArg, if_pos htag, Loggable.payload, hread, fromUtf8Lossy_strBytes,
      Loggable.formatted]
  · have hread : Cursor.readBytes arg.encodedSize ⟨arg.payload ++ rest⟩
        = (arg.payload, ⟨rest⟩) := by
      rw [Cursor.readBytes, List.take_left' arg.payload_length,
        List.drop_left' arg.payload_length]
    simp only [formatArg, if_neg htag, fixedSizes_typeTag htag, hread,
      formatter_payload std arg spec htag, Option.map_some]

/-! ## The walk over the format string -/

/-- What a format string and its arguments are to give: each literal byte, and for each
placeholder the next argument under the placeholder's spec. -/
def render : List Piece → List Loggable → List UInt8
  | [], _ => []
  | .text c :: ps, args => c :: render ps args
  | .place content :: ps, arg :: args =>
    arg.formatted std (parseSpec content) ++ render ps args
  | .place _ :: ps, [] => render ps []

/-- The walk, from where the tags and payloads of `before` are used up: it renders what the
rest of the string denotes and leaves the cursor behind the last payload. -/
theorem interleaveFrom_reads {fmt : List UInt8} {ps : List Piece} (h : Reads fmt ps)
    {fuel : Nat} (before : List Loggable) {args : List Loggable} (rest buf : List UInt8)
    (hfuel : fmt.length ≤ fuel) (hcount : placeholders ps = args.length)
    (hsize : argsSize args ≤ maxRecordSize) :
    interleaveFrom std (tagBytes (before ++ args)) fuel fmt before.length true
        ⟨payloads args ++ rest⟩ buf
      = some (⟨rest⟩, buf ++ render std ps args) := by
  induction h generalizing fuel before args buf with
  | nil =>
    have hnil : args = [] := List.length_eq_zero_iff.mp hcount.symm
    subst hnil
    cases fuel <;> simp [interleaveFrom, payloads, render]
  | openEscape hreads ih =>
    cases fuel with
    | zero => simp at hfuel
    | succ fuel =>
      simp only [List.length_cons] at hfuel
      rw [interleaveFrom, if_pos rfl, if_pos (by simp), List.tail_cons,
        ih before _ (by omega) hcount hsize, render, List.append_assoc]
      rfl
  | closeEscape hreads ih =>
    cases fuel with
    | zero => simp at hfuel
    | succ fuel =>
      simp only [List.length_cons] at hfuel
      rw [interleaveFrom, if_neg openBrace_ne.symm, if_pos rfl, List.drop_one, List.tail_cons,
        ih before _ (by omega) hcount hsize, render, List.append_assoc]
      rfl
  | literal hopen hclose hreads ih =>
    cases fuel with
    | zero => simp at hfuel
    | succ fuel =>
      simp only [List.length_cons] at hfuel
      rw [interleaveFrom, if_neg hopen, if_neg hclose, ih before _ (by omega) hcount hsize, render,
        List.append_assoc]
      rfl
  | @placeholder content tail ps hcontent hat hreads ih =>
    cases fuel with
    | zero => simp at hfuel
    | succ fuel =>
      cases args with
      | nil => cases hcount
      | cons arg args =>
        have hcount : placeholders ps = args.length := Nat.succ.inj hcount
        simp only [List.length_cons, List.length_append] at hfuel
        obtain ⟨hspec, htail⟩ := takeWhile_content hcontent tail
        have htag : (tagBytes (before ++ arg :: args))[before.length]?
            = some (UInt8.ofNat arg.typeTag) := by
          simp [tagBytes]
        have hbyte : (UInt8.ofNat arg.typeTag).toNat = arg.typeTag := by
          cases arg <;> rfl
        change arg.encodedSize + argsSize args ≤ maxRecordSize at hsize
        have hone : arg.encodedSize ≤ maxRecordSize := by omega
        have hrest : argsSize args ≤ maxRecordSize := by omega
        have hpayload : payloads (arg :: args) ++ rest
            = arg.payload ++ (payloads args ++ rest) := by
          simp [payloads]
        have hfuel : tail.length ≤ fuel := by omega
        have hnext := ih (before ++ [arg]) (buf ++ arg.formatted std (parseSpec content))
          hfuel hcount hrest
        rw [List.append_assoc, List.length_append, List.length_singleton] at hnext
        rw [interleaveFrom, if_pos rfl, hat]
        simp only [Bool.false_eq_true, if_false, hspec, htail, htag, if_true, hbyte, hpayload,
          formatArg_payload std arg _ _ hone]
        rw [show arg :: args = [arg] ++ args from rfl, hnext, List.append_assoc]
        rfl

theorem interleave_reads {fmt : List UInt8} {ps : List Piece} (h : Reads fmt ps)
    {args : List Loggable} {rest buf : List UInt8} (hcount : placeholders ps = args.length)
    (hsize : argsSize args ≤ maxRecordSize) :
    interleave std fmt (tagBytes args) ⟨payloads args ++ rest⟩ buf
      = some (⟨rest⟩, buf ++ render std ps args) :=
  interleaveFrom_reads std h [] rest buf (Nat.le_refl _) hcount hsize

end

/-! ## The record -/

/-- The record in the order the decoder reads it. -/
theorem recordBytes_eq (level : Level) (timestamp site : UInt64) (args : List Loggable) :
    recordBytes level timestamp site args
      = ([UInt8.ofNat version, UInt8.ofNat logRecord] ++ leBytes 2 (recordSize args))
        ++ (leBytes 1 level.toU8 ++ (leBytes 2 flagSite ++ ([0] ++ (leBytes 8 timestamp.toNat
        ++ (leBytes 8 site.toNat ++ (leBytes 1 args.length
        ++ (tagBytes args ++ (payloads args ++ [])))))))) := by
  simp [recordBytes, recordHead, leBytes]

/-- The decoder finds in a record what was assembled, and walks its format string. -/
theorem decodeAndFormat_record (env : Env) (level : Level) (timestamp site : UInt64)
    {args : List Loggable} (threadId : Nat) (threadName : String) (spec : FormatSpec)
    (buf : List UInt8) (hcount : args.length ≤ 255) :
    decodeAndFormat env [.place .message spec] threadId threadName
        (recordBytes level timestamp site args) buf
      = interleave env.std (env.site site.toNat).fmt (tagBytes args) ⟨payloads args ++ []⟩ buf := by
  have hsite : flagSite &&& flagSite ≠ 0 := by decide
  have hsource : ¬ flagSite &&& flagSource ≠ 0 := by decide
  have hthread : ¬ flagSite &&& flagThread ≠ 0 := by decide
  have hprocess : ¬ flagSite &&& flagProcess ≠ 0 := by decide
  have hcomplex : ¬ flagSite &&& flagComplex ≠ 0 := by decide
  have htags : Cursor.readBytes args.length ⟨tagBytes args ++ (payloads args ++ [])⟩
      = (tagBytes args, ⟨payloads args ++ []⟩) := by
    rw [Cursor.readBytes, List.take_left' (tagBytes_length args),
      List.drop_left' (tagBytes_length args)]
  have hskip : ([UInt8.ofNat version, UInt8.ofNat logRecord]
      ++ leBytes 2 (recordSize args)).length = 4 := by
    simp
  rw [recordBytes_eq]
  unfold decodeAndFormat
  simp only [skip_append hskip, readU8_leBytes level.toU8_lt,
    readU16_leBytes (show flagSite < 2 ^ 16 by decide), skip_append (n := 1) List.length_singleton,
    readU64_leBytes, readU8_leBytes (Nat.lt_succ_of_le hcount), if_pos hsite, if_neg hsource,
    if_neg hthread, if_neg hprocess, if_neg hcomplex, htags, renderPattern]
  cases interleave env.std (env.site site.toNat).fmt (tagBytes args) ⟨payloads args ++ []⟩ buf with
  | none => rfl
  | some r => rfl

/-! ## The specs of the placeholders -/

/-- What a placeholder's content asks for: nothing, or the spec behind the first `:`, as the
documented grammar derives it. -/
inductive AsksFor : List UInt8 → FormatSpec → Prop where
  | plain {content : List UInt8} : colon ∉ content → AsksFor content FormatSpec.default
  | spec {name : List UInt8} (d : Derivation) :
      colon ∉ name → d.FlagFirst → AsksFor (name ++ colon :: d.text) d.spec

/-- Each placeholder of an accepted format string was accepted by itself. -/
theorem Reads.accepted {fmt : List UInt8} {ps : List Piece} (h : Reads fmt ps) {fuel count n : Nat}
    (hv : validateFrom fuel fmt count = .ok n) {content : List UInt8}
    (hmem : Piece.place content ∈ ps) :
    closeBrace ∉ content ∧
      ∃ rest, validatePlaceholder (content ++ closeBrace :: rest) = .ok rest := by
  induction h generalizing fuel count with
  | nil => cases hmem
  | openEscape hreads ih =>
    have hmem := (List.mem_cons.mp hmem).resolve_left Piece.noConfusion
    cases fuel with
    | zero => cases hv
    | succ fuel =>
      rw [validateFrom, if_pos rfl, if_pos (at?_iff.mpr ⟨_, rfl⟩)] at hv
      exact ih hv hmem
  | closeEscape hreads ih =>
    have hmem := (List.mem_cons.mp hmem).resolve_left Piece.noConfusion
    cases fuel with
    | zero => cases hv
    | succ fuel =>
      rw [validateFrom, if_neg (by decide), if_pos rfl, if_pos (at?_iff.mpr ⟨_, rfl⟩)] at hv
      exact ih hv hmem
  | literal hopen hclose hreads ih =>
    have hmem := (List.mem_cons.mp hmem).resolve_left Piece.noConfusion
    cases fuel with
    | zero => cases hv
    | succ fuel =>
      rw [validateFrom, if_neg hopen, if_neg hclose] at hv
      exact ih hv hmem
  | @placeholder content' rest ps' hcontent hat hreads ih =>
    cases fuel with
    | zero => cases hv
    | succ fuel =>
      rw [validateFrom, if_pos rfl, hat, if_neg Bool.false_ne_true] at hv
      obtain ⟨rest', hplace, hnext⟩ := bind_ok hv
      obtain ⟨cut, hcut, hfree⟩ := validatePlaceholder_reads hplace
      obtain ⟨-, rfl⟩ := content_unique hcontent hfree hcut
      rcases List.mem_cons.mp hmem with heq | hmem
      · cases heq
        exact ⟨hcontent, rest, hplace⟩
      · exact ih hnext hmem

/-- `parse_spec` reads in a placeholder what the grammar derives there. -/
theorem Reads.asksFor {fmt : List UInt8} {ps : List Piece} (h : Reads fmt ps) {n : Nat}
    (hv : validateFmt fmt = .ok n) {content : List UInt8} (hmem : Piece.place content ∈ ps) :
    AsksFor content (parseSpec content) := by
  obtain ⟨hcontent, rest, hplace⟩ := h.accepted hv hmem
  rcases validatePlaceholder_cut hcontent hplace with
    ⟨hno, hspec⟩ | ⟨name, body, rfl, hname, hbody, hconst, hspec⟩
  · rw [hspec]
    exact .plain hno
  · obtain ⟨d, hfirst, rfl⟩ := exists_derivation hbody ((validateSpecRt_iff rest hbody).mpr hconst)
    rw [hspec, d.parse hfirst]
    exact .spec d hname hfirst

/-- A log call's record, whatever memory it goes to, has exactly the bytes `totalSize`
counts, all of them written and none beside them; and the drain renders it, under the
pattern that is just the message, to the text of the format string with each placeholder
replaced by its argument under the spec the grammar derives there, using up the record. -/
theorem codec_round_trip (env : Env) (level : Level) (timestamp site : UInt64)
    (args : List Loggable) (fmt : List UInt8) (threadId : Nat) (threadName : String)
    (buf : List UInt8) (hsite : (env.site site.toNat).fmt = fmt)
    (hfmt : validateFmt fmt = .ok args.length) (hcount : args.length ≤ 255)
    (hsize : baseRecordSize + args.length + (args.map Loggable.encodedSize).sum ≤ maxRecordSize) :
    totalSize args = baseRecordSize + args.length + (args.map Loggable.encodedSize).sum ∧
    ∃ record ps, Reads fmt ps ∧ placeholders ps = args.length ∧
      (∀ content, Piece.place content ∈ ps → AsksFor content (parseSpec content)) ∧
      (∀ mem, ∃ mem', assembleLog mem level timestamp site args = some mem' ∧
        slice mem' 0 (totalSize args) = record ∧ ∀ i, totalSize args ≤ i → mem' i = mem i) ∧
      decodeAndFormat env [.place .message FormatSpec.default] threadId threadName record buf
        = some (⟨[]⟩, buf ++ render env.std ps args) := by
  have htotal : totalSize args = recordSize args := totalSize_eq hsize
  have hlen := recordBytes_length level timestamp site args
  obtain ⟨ps, hreads, hps⟩ := validateFmt_reads hfmt
  refine ⟨htotal, recordBytes level timestamp site args, ps, hreads, hps,
    fun content hmem => hreads.asksFor hfmt hmem, fun mem => ?_, ?_⟩
  · refine ⟨_, assembleLog_eq mem level timestamp site hsize, ?_, fun i hi => ?_⟩
    · rw [htotal, ← hlen]
      exact slice_store mem _
    · exact store_outside (by omega)
  · have hargs : argsSize args ≤ maxRecordSize := Nat.le_trans (Nat.le_add_left _ _) hsize
    rw [decodeAndFormat_record env level timestamp site threadId threadName _ buf hcount, hsite,
      interleave_reads env.std hreads hps hargs]

/-- The format string of a call site, in bytes: an escaped brace, a padded number, a string. -/
def exampleFmt : List UInt8 :=
  [0x7B, 0x7B, 0x20, 0x7B, 0x3A, 0x3E, 0x33, 0x7D, 0x20, 0x7B, 0x7D]

/-- A drain whose call sites all have that format string. -/
def exampleEnv : Env where
  std := ⟨fun _ _ => [], fun _ _ _ => [], fun _ _ => [], fun bits => bits.toUInt64, fun _ _ => [],
    fun _ => ""⟩
  site := fun _ => ⟨exampleFmt, [], 1⟩
  sourceFile := fun _ _ => []
  timestamp := fun _ => []

theorem codec_round_trip_example :
    ∃ record ps, Reads exampleFmt ps ∧
      decodeAndFormat exampleEnv [.place .message FormatSpec.default] 1 "main" record []
        = some (⟨[]⟩, render exampleEnv.std ps [.u8 7, .str "ok"]) := by
  have h := codec_round_trip exampleEnv .info 5 4096 [.u8 7, .str "ok"] exampleFmt 1 "main" []
    rfl (by decide) (by decide) (by decide)
  obtain ⟨-, record, ps, hreads, -, -, -, hdecode⟩ := h
  exact ⟨record, ps, hreads, hdecode⟩

end Ticklog
