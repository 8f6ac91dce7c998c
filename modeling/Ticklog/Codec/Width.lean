import Ticklog.Codec.Text

/-!
# Widths of strings (`src/format.rs`)

`FormatSpec` documents its width as "in characters", and `format_str` cuts a value at a number of
characters; but `format_with_spec` compares the width with the number of bytes. The padding
comes out as documented exactly where the two counts give the same padding
(`string_width_iff`): where the value is wide enough anyway, or all of it is ASCII.
-/

namespace Ticklog

open Lib

/-- The value cut to the precision. -/
def cut (value : String) (spec : FormatSpec) : List Char :=
  spec.precision.elim value.toList value.toList.take

namespace FormatSpec

variable (spec : FormatSpec)

/-- The fill; the `0` flag forces it to `0`. -/
def padByte : UInt8 := if spec.zeroFill then zeroDigit else spec.fill

/-- How much of a padding goes to the left. The `0` flag aligns to the right unless an alignment
was given. -/
def leftOf (padding : Nat) : Nat :=
  match if spec.zeroFill ∧ spec.align = .none then Align.right else spec.align with
  | .none | .left => 0
  | .right => padding
  | .center => padding / 2

/-- Characters padded to the width, counting characters. -/
def padded (v : List Char) : List Char :=
  let padding := spec.width.getD 0 - v.length
  let fill := Char.ofNat spec.padByte.toNat
  List.replicate (spec.leftOf padding) fill ++ v ++
    List.replicate (padding - spec.leftOf padding) fill

theorem leftOf_le (padding : Nat) : spec.leftOf padding ≤ padding := by
  unfold leftOf
  split
  · exact Nat.zero_le _
  · exact Nat.zero_le _
  · exact Nat.le_refl _
  · exact Nat.div_le_self _ _

theorem padded_length (v : List Char) :
    (spec.padded v).length = max (spec.width.getD 0) v.length := by
  have hle := spec.leftOf_le (spec.width.getD 0 - v.length)
  unfold padded
  simp only [List.length_append, List.length_replicate]
  omega

end FormatSpec

/-- `format_str` counts the width in characters: the output is the cut value between fills, as
many characters as the width asks for. -/
structure InCharacters (std : Std) (value : String) (spec : FormatSpec) : Prop where
  text : formatStr std value spec = utf8 (spec.padded (cut value spec))
  length : (spec.padded (cut value spec)).length
    = max (spec.width.getD 0) (cut value spec).length
  whole : cut value spec <:+: spec.padded (cut value spec)

/-! ## Bytes and characters -/

theorem strBytes_ofList (cs : List Char) : strBytes (String.ofList cs) = utf8 cs := by
  rw [strBytes, String.toByteArray_ofList, List.utf8Encode]
  simp [utf8]

theorem strBytes_eq_utf8 (s : String) : strBytes s = utf8 s.toList := by
  rw [← strBytes_ofList, String.ofList_toList]

theorem utf8_append (cs ds : List Char) : utf8 (cs ++ ds) = utf8 cs ++ utf8 ds :=
  List.flatMap_append

theorem utf8_replicate {b : UInt8} (h : b < 0x80) (n : Nat) :
    utf8 (List.replicate n (Char.ofNat b.toNat)) = List.replicate n b := by
  induction n with
  | zero => rfl
  | succ n ih =>
    rw [List.replicate_succ, List.replicate_succ, utf8, List.flatMap_cons, encodeChar_ascii h]
    exact congrArg (b :: ·) ih

/-- A text has at least as many bytes as characters, and as many only if it is ASCII. -/
theorem utf8_length (cs : List Char) :
    cs.length ≤ (utf8 cs).length ∧
      ((utf8 cs).length = cs.length ↔ ∀ c ∈ cs, c.utf8Size = 1) := by
  induction cs with
  | nil => exact ⟨Nat.le_refl _, by simp [utf8]⟩
  | cons c cs ih =>
    obtain ⟨hle, hiff⟩ := ih
    have hpos := c.utf8Size_pos
    have hlength : (utf8 (c :: cs)).length = c.utf8Size + (utf8 cs).length := by
      rw [utf8, List.flatMap_cons, List.length_append, String.length_utf8EncodeChar]
      rfl
    rw [hlength, List.length_cons, List.forall_mem_cons, ← hiff]
    omega

/-! ## The padder -/

/-- `format_with_spec` pads by what is missing in bytes. -/
theorem formatWithSpec_eq (value : List UInt8) (spec : FormatSpec) :
    formatWithSpec value spec
      = List.replicate (spec.leftOf (spec.width.getD 0 - value.length)) spec.padByte ++ value ++
        List.replicate (spec.width.getD 0 - value.length -
          spec.leftOf (spec.width.getD 0 - value.length)) spec.padByte := by
  unfold formatWithSpec
  simp only
  split
  next hle =>
    have hzero : spec.leftOf 0 = 0 := Nat.le_zero.mp (spec.leftOf_le 0)
    rw [Nat.sub_eq_zero_of_le hle, hzero]
    exact (List.append_nil _).symm
  next =>
    unfold FormatSpec.leftOf FormatSpec.padByte
    generalize (if spec.zeroFill ∧ spec.align = Align.none then Align.right else spec.align) = a
    cases a with
    | none => rfl
    | left => rfl
    | right => simp
    | center => rfl

theorem formatStr_eq (std : Std) (value : String) {spec : FormatSpec}
    (htype : spec.typeChar ≠ some (ascii '?')) :
    formatStr std value spec = formatWithSpec (utf8 (cut value spec)) spec := by
  unfold formatStr cut
  dsimp only
  cases hc : spec.typeChar with
  | none =>
    cases spec.precision with
    | none => exact congrArg (formatWithSpec · spec) (strBytes_eq_utf8 value)
    | some p => exact congrArg (formatWithSpec · spec) (strBytes_ofList _)
  | some c =>
    have hne : c ≠ ascii '?' := fun heq => htype (hc.trans (congrArg some heq))
    dsimp only
    rw [if_neg hne]
    cases spec.precision with
    | none => exact congrArg (formatWithSpec · spec) (strBytes_eq_utf8 value)
    | some p => exact congrArg (formatWithSpec · spec) (strBytes_ofList _)

/-- Under a spec without the debug type, accepted or not, the width of a string is counted in
characters exactly when the cut value has that many, or is ASCII. -/
theorem string_width_iff (std : Std) (value : String) {body : List UInt8} (htext : Utf8 body)
    (htype : (parseSpecBody body).typeChar ≠ some (ascii '?')) :
    InCharacters std value (parseSpecBody body) ↔
      (parseSpecBody body).width.getD 0 ≤ (cut value (parseSpecBody body)).length ∨
        ∀ c ∈ cut value (parseSpecBody body), c.utf8Size = 1 := by
  have hfill := parseSpecBody_fill htext
  generalize parseSpecBody body = spec at hfill htype ⊢
  generalize hv : cut value spec = v
  have hpad : spec.padByte < 0x80 := by
    unfold FormatSpec.padByte
    split
    · decide
    · exact hfill
  obtain ⟨hle, hascii⟩ := utf8_length v
  have hout : formatStr std value spec = formatWithSpec (utf8 v) spec := by
    rw [formatStr_eq std value htype, hv]
  rw [formatWithSpec_eq] at hout
  have hclaimed : utf8 (spec.padded v)
      = List.replicate (spec.leftOf (spec.width.getD 0 - v.length)) spec.padByte ++ utf8 v ++
        List.replicate (spec.width.getD 0 - v.length -
          spec.leftOf (spec.width.getD 0 - v.length)) spec.padByte := by
    unfold FormatSpec.padded
    rw [utf8_append, utf8_append, utf8_replicate hpad, utf8_replicate hpad]
  constructor
  · rintro ⟨htext, -, -⟩
    -- both texts have the bytes of the value, so the paddings are equal
    rw [hv, hout, hclaimed] at htext
    have hlength := congrArg List.length htext
    simp only [List.length_append, List.length_replicate] at hlength
    have hbytes := spec.leftOf_le (spec.width.getD 0 - (utf8 v).length)
    have hchars := spec.leftOf_le (spec.width.getD 0 - v.length)
    rcases Nat.lt_or_ge v.length (spec.width.getD 0) with hwide | hwide
    · exact Or.inr (hascii.mp (by omega))
    · exact Or.inl hwide
  · intro hcond
    have hpadding : spec.width.getD 0 - (utf8 v).length = spec.width.getD 0 - v.length := by
      rcases hcond with hwide | hall
      · omega
      · rw [hascii.mpr hall]
    refine ⟨?_, ?_, ?_⟩
    · rw [hv, hout, hclaimed, hpadding]
    · rw [hv]
      exact spec.padded_length v
    · rw [hv]
      exact ⟨_, _, rfl⟩

/-- `{:*^7.5}` of an ASCII value. -/
theorem string_width_iff_ascii :
    InCharacters blankStd "ticklog" (parseSpecBody (strBytes "*^7.5")) := by
  have hall : (cut "ticklog" (parseSpecBody (strBytes "*^7.5"))).all (fun c => c.utf8Size == 1)
      = true := by decide
  exact (string_width_iff blankStd "ticklog" (strBytes_utf8 _) (by decide)).mpr
    (Or.inr fun c hc => by simpa using List.all_eq_true.mp hall c hc)

/-- `{:2}` of `é` is not padded: its two bytes fill the width. -/
theorem string_width_accent :
    validateSpecRt (strBytes "2") = .ok () ∧
      formatStr blankStd "é" (parseSpecBody (strBytes "2")) = strBytes "é" ∧
      ¬InCharacters blankStd "é" (parseSpecBody (strBytes "2")) := by
  have hout : formatStr blankStd "é" (parseSpecBody (strBytes "2")) = strBytes "é" := by decide
  refine ⟨by decide, hout, ?_⟩
  rintro ⟨htext, -, -⟩
  rw [hout] at htext
  exact absurd htext (by decide)

end Ticklog
