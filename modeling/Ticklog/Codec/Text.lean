import Ticklog.Codec.Payload
import Ticklog.Codec.Timestamp

/-!
# Every line is text

A line is put together byte by byte: literals one byte at a time, single-byte fills,
truncated strings. Each formatter gives UTF-8 under a spec whose fill is ASCII
(`formatWithSpec_utf8`), which both validators see to; between two braces of a format
string the copied bytes are whole characters (`interleaveFrom_utf8`). So what the drain
hands to the sink is UTF-8 for every accepted pattern and format string and any payloads
(`line_utf8`).
-/

namespace Ticklog

open Lib

/-! ## ASCII -/

def Ascii (bytes : List UInt8) : Prop := ∀ b ∈ bytes, b < 0x80

namespace Ascii

theorem append {xs ys : List UInt8} (hx : Ascii xs) (hy : Ascii ys) : Ascii (xs ++ ys) := by
  intro b hb
  rcases List.mem_append.mp hb with hb | hb
  · exact hx b hb
  · exact hy b hb

theorem cons {b : UInt8} {xs : List UInt8} (hb : b < 0x80) (hx : Ascii xs) : Ascii (b :: xs) := by
  intro d hd
  rcases List.mem_cons.mp hd with rfl | hd
  · exact hb
  · exact hx d hd

theorem replicate {b : UInt8} (hb : b < 0x80) (n : Nat) : Ascii (List.replicate n b) := by
  intro d hd
  rw [List.eq_of_mem_replicate hd]
  exact hb

theorem take {xs : List UInt8} (h : Ascii xs) (n : Nat) : Ascii (xs.take n) :=
  fun b hb => h b (List.mem_of_mem_take hb)

theorem drop {xs : List UInt8} (h : Ascii xs) (n : Nat) : Ascii (xs.drop n) :=
  fun b hb => h b (List.mem_of_mem_drop hb)

theorem utf8 {xs : List UInt8} (h : Ascii xs) : Utf8 xs := .ascii h

end Ascii

theorem digitChar_lt (n : Nat) : (Nat.digitChar n).toNat < 128 := by
  rcases Nat.lt_or_ge n 16 with h | h
  · have hall : ∀ m : Fin 16, (Nat.digitChar m.val).toNat < 128 := by decide
    exact hall ⟨n, h⟩
  · have hstar : Nat.digitChar n = '*' := by
      unfold Nat.digitChar
      repeat rw [if_neg (by omega)]
    rw [hstar]
    decide

theorem ascii_digitChar (n : Nat) : ascii (Nat.digitChar n) < 0x80 := by
  have := digitChar_lt n
  rw [ascii, UInt8.lt_iff_toNat_lt, UInt8.toNat_ofNat']
  show (Nat.digitChar n).toNat % 256 < 128
  omega

theorem toDigits_mem {base n : Nat} {c : Char} (h : c ∈ Nat.toDigits base n) :
    ∃ d, c = Nat.digitChar d := by
  have hcore : ∀ (fuel n : Nat) (ds : List Char), (∀ c ∈ ds, ∃ d, c = Nat.digitChar d) →
      ∀ c ∈ Nat.toDigitsCore base fuel n ds, ∃ d, c = Nat.digitChar d := by
    intro fuel
    induction fuel with
    | zero => exact fun n ds hds => hds
    | succ fuel ih =>
      intro n ds hds
      have hcons : ∀ c ∈ Nat.digitChar (n % base) :: ds, ∃ d, c = Nat.digitChar d := by
        intro c hc
        rcases List.mem_cons.mp hc with rfl | hc
        · exact ⟨_, rfl⟩
        · exact hds c hc
      rw [Nat.toDigitsCore]
      split
      · exact hcons
      · exact ih _ _ hcons
  exact hcore _ _ _ (by simp) c h

theorem digitsIn_ascii (base n : Nat) : Ascii (digitsIn base n) := by
  intro b hb
  obtain ⟨c, hc, rfl⟩ := List.mem_map.mp hb
  obtain ⟨d, rfl⟩ := toDigits_mem hc
  exact ascii_digitChar d

theorem upper_ascii {b : UInt8} (h : b < 0x80) : upper b < 0x80 := by
  unfold upper
  split
  next hrange =>
    have hlo : 0x61 ≤ b.toNat := UInt8.le_iff_toNat_le.mp hrange.1
    have hhi : b.toNat ≤ 0x7A := UInt8.le_iff_toNat_le.mp hrange.2
    have hsub : (b - 0x20).toNat = b.toNat - 0x20 :=
      UInt8.toNat_sub_of_le _ _ (UInt8.le_iff_toNat_le.mpr (Nat.le_trans (by decide) hlo))
    rw [UInt8.lt_iff_toNat_lt, hsub]
    show b.toNat - 32 < 128
    omega
  next => exact h

theorem upper_map_ascii {xs : List UInt8} (h : Ascii xs) : Ascii (xs.map upper) := by
  intro b hb
  obtain ⟨c, hc, rfl⟩ := List.mem_map.mp hb
  exact upper_ascii (h c hc)

theorem padDigits_ascii {s : List UInt8} (h : Ascii s) (prefixLen : Nat) (precision : Option Nat) :
    Ascii (padDigits s prefixLen precision) := by
  unfold padDigits
  split
  next => exact ((h.take _).append (.replicate (by decide) _)).append (h.drop _)
  next => exact h

/-! ## The formatters -/

/-- The value is padded with an ASCII byte. -/
theorem formatWithSpec_utf8 {value : List UInt8} {spec : FormatSpec} (hvalue : Utf8 value)
    (hfill : spec.fill < 0x80) : Utf8 (formatWithSpec value spec) := by
  have hpad : ∀ n, Utf8 (List.replicate n (if spec.zeroFill then zeroDigit else spec.fill)) := by
    intro n
    apply Ascii.utf8
    apply Ascii.replicate
    split
    · decide
    · exact hfill
  unfold formatWithSpec
  simp only
  split
  next => exact hvalue
  next =>
    split
    next => exact hvalue.append (hpad _)
    next => exact hvalue.append (hpad _)
    next => exact (hpad _).append hvalue
    next => exact ((hpad _).append hvalue).append (hpad _)

theorem formatUnsigned_utf8 (value : Nat) {spec : FormatSpec} (hfill : spec.fill < 0x80) :
    Utf8 (formatUnsigned value spec) := by
  have hradix : ∀ (marker : Char) (s : List UInt8), ascii marker < 0x80 → Ascii s →
      Ascii (if spec.alternate then [zeroDigit, ascii marker] ++ s else s) := by
    intro marker s hmarker hs
    split
    · exact .cons (by decide) (.cons hmarker hs)
    · exact hs
  unfold formatUnsigned
  simp only
  refine formatWithSpec_utf8 (Ascii.utf8 (padDigits_ascii ?_ _ _)) hfill
  split
  next =>
    split
    · exact hradix _ _ (by decide) (digitsIn_ascii 16 value)
    · split
      · exact hradix _ _ (by decide) (upper_map_ascii (digitsIn_ascii 16 value))
      · split
        · exact hradix _ _ (by decide) (digitsIn_ascii 8 value)
        · split
          · exact hradix _ _ (by decide) (digitsIn_ascii 2 value)
          · exact digitsIn_ascii 10 value
  next => exact digitsIn_ascii 10 value

theorem formatSigned_utf8 (value : Int) {spec : FormatSpec} (hfill : spec.fill < 0x80) :
    Utf8 (formatSigned value spec) := by
  unfold formatSigned
  simp only
  refine formatWithSpec_utf8 (Ascii.utf8 (padDigits_ascii ?_ _ _)) hfill
  split
  · exact .cons (by decide) (digitsIn_ascii 10 _)
  · exact digitsIn_ascii 10 _

theorem strBytes_utf8 (s : String) : Utf8 (strBytes s) := utf8_toByteArray s

theorem formatBool_utf8 (value : Bool) {spec : FormatSpec} (hfill : spec.fill < 0x80) :
    Utf8 (formatBool value spec) :=
  formatWithSpec_utf8 (strBytes_utf8 _) hfill

/-- What the standard library formats is a `String`. -/
structure Std.IsText (std : Std) : Prop where
  display : ∀ bits precision, Utf8 (std.display bits precision)
  exp : ∀ upper bits precision, Utf8 (std.exp upper bits precision)
  debug : ∀ alternate bits, Utf8 (std.debug alternate bits)
  debugStr : ∀ alternate s, Utf8 (std.debugStr alternate s)

section

variable {std : Std} (hstd : std.IsText)
include hstd

theorem formatFloat_utf8 (bits : UInt64) {spec : FormatSpec} (hfill : spec.fill < 0x80) :
    Utf8 (formatFloat std bits spec) := by
  unfold formatFloat
  simp only
  refine formatWithSpec_utf8 ?_ hfill
  split
  next =>
    split
    · exact hstd.debug _ _
    · split
      · exact hstd.exp _ _ _
      · split
        · exact hstd.exp _ _ _
        · exact hstd.display _ _
  next => exact hstd.display _ _

theorem formatStr_utf8 (value : String) {spec : FormatSpec} (hfill : spec.fill < 0x80) :
    Utf8 (formatStr std value spec) := by
  unfold formatStr
  simp only
  refine formatWithSpec_utf8 ?_ hfill
  split
  next =>
    split
    · exact hstd.debugStr _ _
    · split <;> exact strBytes_utf8 _
  next => split <;> exact strBytes_utf8 _

/-- A payload's text, where its formatter does not panic. -/
theorem formatter_utf8 {tag : Nat} {data text : List UInt8} {spec : FormatSpec}
    (hfill : spec.fill < 0x80) (h : formatter std tag data spec = some text) : Utf8 text := by
  have hmap : ∀ {α : Type} {x : Option α} {f : α → List UInt8}, (∀ a, Utf8 (f a)) →
      x.map f = some text → Utf8 text := by
    intro α x f hf hx
    obtain ⟨a, -, rfl⟩ := Option.map_eq_some_iff.mp hx
    exact hf a
  have hite : ∀ {p : Prop} [Decidable p] {x y : Option (List UInt8)},
      (x = some text → Utf8 text) → (y = some text → Utf8 text) →
      (if p then x else y) = some text → Utf8 text := by
    intro p _ x y hx hy h
    by_cases hp : p
    · rw [if_pos hp] at h
      exact hx h
    · rw [if_neg hp] at h
      exact hy h
  have hunsigned : ∀ n, Utf8 (formatUnsigned n spec) := fun n => formatUnsigned_utf8 n hfill
  have hsigned : ∀ n, Utf8 (formatSigned n spec) := fun n => formatSigned_utf8 n hfill
  have hfloat : ∀ bits, Utf8 (formatFloat std bits spec) := fun b => formatFloat_utf8 hstd b hfill
  have hbool : ∀ v, Utf8 (formatBool v spec) := fun v => formatBool_utf8 v hfill
  revert h
  unfold formatter
  -- one case for each tag, in the order of the table
  apply hite (hmap fun n => hunsigned _)
  apply hite (hmap fun n => hsigned _)
  apply hite (hmap fun n => hfloat _)
  apply hite (hmap fun n => hunsigned _)
  apply hite (hmap fun n => hsigned _)
  apply hite (hmap fun n => hfloat _)
  apply hite (hmap fun n => hunsigned _)
  apply hite (hmap fun n => hsigned _)
  apply hite (hmap fun b => hunsigned _)
  apply hite (hmap fun b => hsigned _)
  apply hite (hmap fun b => hbool _)
  apply hite
  · intro h
    rw [← Option.some.inj h]
    exact formatStr_utf8 hstd _ hfill
  · intro h
    cases h

theorem formatArg_utf8 {tag : Nat} {spec : FormatSpec} {c c' : Cursor} {known : Bool}
    {text : List UInt8} (hfill : spec.fill < 0x80)
    (h : formatArg std tag spec c = some (known, c', text)) : Utf8 text := by
  unfold formatArg at h
  split at h
  next =>
    cases h
    exact formatStr_utf8 hstd _ hfill
  next =>
    split at h
    next size hsize =>
      obtain ⟨t, ht, heq⟩ := Option.map_eq_some_iff.mp h
      cases heq
      exact formatter_utf8 hstd hfill ht
    next =>
      cases h
      exact .nil

end

theorem unknownTag_utf8 (tag : Nat) : Utf8 (unknownTag tag) := by
  unfold unknownTag
  have hdigit : ∀ n, upper (ascii (Nat.digitChar n)) < 0x80 :=
    fun n => upper_ascii (ascii_digitChar n)
  have hhex : Ascii [upper (ascii (Nat.digitChar (tag / 16))),
      upper (ascii (Nat.digitChar (tag % 16)))] :=
    .cons (hdigit _) (.cons (hdigit _) fun b hb => absurd hb List.not_mem_nil)
  exact ((strBytes_utf8 _).append hhex.utf8).append (strBytes_utf8 _)

/-- What stands for an argument is text, also where the argument cannot be read. -/
theorem renderArg_utf8 {std : Std} (hstd : std.IsText) {tags : List UInt8} {spec : FormatSpec}
    {argIdx : Nat} {parseOk ok : Bool} {c c' : Cursor} {text : List UInt8}
    (hfill : spec.fill < 0x80)
    (h : renderArg std tags spec argIdx parseOk c = some (ok, c', text)) : Utf8 text := by
  unfold renderArg at h
  split at h
  next tag _ =>
    split at h
    next =>
      obtain ⟨r, hr, heq⟩ := Option.map_eq_some_iff.mp h
      obtain ⟨known, c₁, t⟩ := r
      cases heq
      show Utf8 (if known = true then t else unknownTag tag.toNat)
      split
      · exact formatArg_utf8 hstd hfill hr
      · exact unknownTag_utf8 _
    next =>
      cases h
      exact unknownTag_utf8 _
  next =>
    cases h
    exact strBytes_utf8 _

/-! ## The message -/

/-- The walk over a format string: `buf` is text, and behind it stand the bytes of the current
literal run, which with the rest of the string are text too. -/
theorem interleaveFrom_utf8 {std : Std} (hstd : std.IsText) {tags rest : List UInt8}
    {ps : List Piece} (h : Reads rest ps) {fuel : Nat} {argIdx : Nat} {parseOk : Bool}
    {c c' : Cursor} {buf run out : List UInt8} (hfuel : rest.length ≤ fuel) (hbuf : Utf8 buf)
    (hrun : Utf8 (run ++ rest))
    (hout : interleaveFrom std tags fuel rest argIdx parseOk c (buf ++ run) = some (c', out)) :
    Utf8 out := by
  induction h generalizing fuel argIdx parseOk c buf run with
  | nil =>
    rw [List.append_nil] at hrun
    cases fuel <;> cases hout <;> exact hbuf.append hrun
  | @openEscape rest ps hreads ih =>
    cases fuel with
    | zero => simp at hfuel
    | succ fuel =>
      simp only [List.length_cons] at hfuel
      rw [interleaveFrom, if_pos rfl, if_pos (by simp), List.tail_cons] at hout
      obtain ⟨hlit, hrest⟩ := Utf8.cut (b := openBrace) (by decide) hrun
      have hnext : Utf8 ([openBrace] ++ rest) := hrest
      refine ih (by omega) (hbuf.append hlit) ?_ hout
      exact hnext
  | @closeEscape rest ps hreads ih =>
    cases fuel with
    | zero => simp at hfuel
    | succ fuel =>
      simp only [List.length_cons] at hfuel
      rw [interleaveFrom, if_neg openBrace_ne.symm, if_pos rfl, List.drop_one,
        List.tail_cons] at hout
      obtain ⟨hlit, hrest⟩ := Utf8.cut (b := closeBrace) (by decide) hrun
      have hnext : Utf8 ([closeBrace] ++ rest) := hrest
      exact ih (by omega) (hbuf.append hlit) hnext hout
  | @literal b rest ps hopen hclose hreads ih =>
    cases fuel with
    | zero => simp at hfuel
    | succ fuel =>
      simp only [List.length_cons] at hfuel
      rw [interleaveFrom, if_neg hopen, if_neg hclose, List.append_assoc] at hout
      refine ih (by omega) hbuf ?_ hout
      rw [List.append_assoc]
      exact hrun
  | @placeholder content tail ps hcontent hat hreads ih =>
    cases fuel with
    | zero => simp at hfuel
    | succ fuel =>
      simp only [List.length_cons, List.length_append] at hfuel
      obtain ⟨hlit, hrest⟩ := Utf8.cut (b := openBrace) (by decide) hrun
      obtain ⟨hspec, htail⟩ := Utf8.cut (b := closeBrace) (by decide) hrest
      obtain ⟨htake, hdrop⟩ := takeWhile_content hcontent tail
      rw [interleaveFrom_place hat, htake, hdrop] at hout
      obtain ⟨r, hr, hout⟩ := Option.bind_eq_some_iff.mp hout
      obtain ⟨ok, c₁, text⟩ := r
      have htext : Utf8 text := renderArg_utf8 hstd (parseSpec_fill hspec) hr
      have hnil : buf ++ run ++ text = (buf ++ run ++ text) ++ [] := (List.append_nil _).symm
      rw [hnil] at hout
      have hrest : Utf8 ([] ++ tail) := htail
      exact ih (by omega) ((hbuf.append hlit).append htext) hrest hout

theorem interleave_utf8 {std : Std} (hstd : std.IsText) {fmt tags : List UInt8} {n : Nat}
    (hfmt : validateFmt fmt = .ok n) (htext : Utf8 fmt) {c c' : Cursor} {buf out : List UInt8}
    (hbuf : Utf8 buf) (hout : interleave std fmt tags c buf = some (c', out)) : Utf8 out := by
  obtain ⟨ps, hreads, -⟩ := validateFmt_reads hfmt
  rw [interleave, ← List.append_nil buf] at hout
  have hrest : Utf8 ([] ++ fmt) := htext
  exact interleaveFrom_utf8 hstd hreads (Nat.le_refl _) hbuf hrest hout

/-! ## The line -/

section

variable {env : Env} (hstd : env.std.IsText) (hclock : ∀ ticks, Utf8 (env.timestamp ticks))
include hstd hclock

theorem fieldText_utf8 (line : Line) (field : Field) {spec : FormatSpec}
    (hfill : spec.fill < 0x80) : Utf8 (fieldText env line field spec) := by
  cases field with
  | timestamp => exact hclock _
  | level => exact formatStr_utf8 hstd _ hfill
  | file =>
    show Utf8 (line.fileLine.elim [] fun f => formatBytes env f.1 spec)
    cases line.fileLine with
    | none => exact .nil
    | some f => exact formatStr_utf8 hstd _ hfill
  | line =>
    show Utf8 (line.fileLine.elim [] fun f => formatUnsigned f.2 spec)
    cases line.fileLine with
    | none => exact .nil
    | some f => exact formatUnsigned_utf8 _ hfill
  | threadName =>
    show Utf8 (line.threadName.elim [] fun name => formatStr env.std name spec)
    cases line.threadName with
    | none => exact .nil
    | some name => exact formatStr_utf8 hstd _ hfill
  | threadId =>
    exact ((strBytes_utf8 _).append (formatUnsigned_utf8 _ hfill)).append (strBytes_utf8 _)
  | message => exact .nil

theorem renderPattern_utf8 {line : Line} {tags : List UInt8} {n : Nat}
    (hfmt : validateFmt line.fmt = .ok n) (htext : Utf8 line.fmt) {template : List Segment}
    (htemplate : ∀ seg ∈ template, seg.IsText) {c c' : Cursor} {buf out : List UInt8}
    (hbuf : Utf8 buf) (hout : renderPattern env line tags template c buf = some (c', out)) :
    Utf8 out := by
  induction template generalizing c buf with
  | nil =>
    cases hout
    exact hbuf
  | cons seg rest ih =>
    have hseg : seg.IsText := htemplate seg List.mem_cons_self
    have hrest : ∀ seg ∈ rest, seg.IsText := fun s hs => htemplate s (List.mem_cons_of_mem _ hs)
    cases seg with
    | lit s => exact ih hrest (hbuf.append hseg) hout
    | place field spec =>
      by_cases hfield : field = .message
      · subst hfield
        rw [renderPattern] at hout
        obtain ⟨r, hmsg, hout⟩ := Option.bind_eq_some_iff.mp hout
        exact ih hrest (interleave_utf8 hstd hfmt htext hbuf hmsg) hout
      · rw [renderPattern_field env hfield] at hout
        exact ih hrest (hbuf.append (fieldText_utf8 hstd hclock line field hseg)) hout

end

/-- Under every accepted pattern and format string, whatever the payloads' bytes, as long as
they have their full width, a record becomes a line, and the line is UTF-8. -/
theorem line_utf8 {std : Std} (hstd : std.IsText) (site : Nat → Site)
    (sourceFile : Nat → Nat → List UInt8) (toNs : Nat → Nat) (offset : Int)
    {pattern fmt : String} {template : List Segment} {n ringThreadId : Nat}
    {ringThreadName : String} {record : List UInt8} {decoded : Decoded}
    (hpattern : parseTemplate (strBytes pattern) = .ok template)
    (hdecoded : decodeRecord (drainEnv std site sourceFile toNs offset) ringThreadId ringThreadName
      record = decoded)
    (hsite : decoded.line.fmt = strBytes fmt) (hfmt : validateFmt (strBytes fmt) = .ok n)
    (hargs : FullWidth decoded.tags decoded.payload.rest) :
    ∃ c line, decodeAndFormat (drainEnv std site sourceFile toNs offset) template ringThreadId
        ringThreadName record [] = some (c, line) ∧ Utf8 line := by
  have hclock : ∀ ticks, Utf8 ((drainEnv std site sourceFile toNs offset).timestamp ticks) :=
    fun ticks => formatIso8601_utf8 _ _
  obtain ⟨htemplate, hone⟩ := parseTemplate_text hpattern (strBytes_utf8 pattern)
  rw [← hsite] at hfmt
  obtain ⟨ps, hreads, -⟩ := validateFmt_reads hfmt
  obtain ⟨out, left, hrun, -⟩ := renderPattern_shown
    (drainEnv std site sourceFile toNs offset) hreads hone []
    (Or.inr (hargs.intact (placeholders ps)))
  rw [decodeAndFormat_eq, hdecoded]
  refine ⟨⟨left⟩, out, hrun, ?_⟩
  exact renderPattern_utf8 hstd hclock hfmt (hsite ▸ strBytes_utf8 fmt) htemplate .nil hrun

/-- A standard library that renders floats and debug strings as nothing, and each byte that is
not a character by itself as a replacement character. -/
def blankStd : Std :=
  ⟨fun _ _ => [], fun _ _ _ => [], fun _ _ => [], fun bits => bits.toUInt64, fun _ _ => [],
    fun bytes => String.ofList (bytes.map fun b =>
      Char.ofNat (if b < 0x80 then b.toNat else 0xFFFD))⟩

/-- A record of a `u8` and of a string whose two bytes are not UTF-8. -/
def brokenString : List UInt8 :=
  [UInt8.ofNat version, UInt8.ofNat logRecord, 32, 0, 2, 1, 0, 0] ++ leBytes 8 5 ++ leBytes 8 4096
    ++ [2, 0x08, 0x0B] ++ [7] ++ [2, 0, 0xFF, 0xC3]

theorem line_utf8_brokenString :
    ∃ c line, decodeAndFormat
        (drainEnv blankStd (fun _ => ⟨strBytes "é \x7b:.<4\x7d\x7b:>3\x7d", strBytes "ä.rs", 1⟩)
          (fun _ _ => []) id (-3600))
        [.lit (strBytes "→ "), .place .message FormatSpec.default] 1 "main" brokenString []
          = some (c, line) ∧ Utf8 line := by
  have hstd : blankStd.IsText :=
    ⟨fun _ _ => .nil, fun _ _ _ => .nil, fun _ _ => .nil, fun _ _ => .nil⟩
  have hpattern : parseTemplate (strBytes "→ \x7bmessage\x7d")
      = .ok [.lit (strBytes "→ "), .place .message FormatSpec.default] := rfl
  have hfmt : validateFmt (strBytes "é \x7b:.<4\x7d\x7b:>3\x7d") = .ok 2 := by decide
  have hargs : FullWidth [0x08, 0x0B] [7, 2, 0, 0xFF, 0xC3] := by
    have hstr : FullWidth [0x0B] ([2, 0] ++ ([0xFF, 0xC3] ++ [])) := .str rfl rfl rfl .nil
    have hbyte : FullWidth [0x08, 0x0B] ([7] ++ [2, 0, 0xFF, 0xC3]) := .fixed (by decide) rfl hstr
    exact hbyte
  exact line_utf8 hstd _ _ _ _ hpattern rfl rfl hfmt hargs

end Ticklog
