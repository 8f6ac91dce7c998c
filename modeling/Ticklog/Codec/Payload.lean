import Ticklog.Codec.Agree
import Ticklog.Codec.Template

/-!
# Where decoding can fail

Everything `decode_and_format` reads is clamped to the record except in the per-tag
formatters, which take a slice of the full width for granted and panic on a shorter one. So
whether a line comes out is decided by the payloads alone: `whole` walks them as `interleave`
does and asks that none with a fixed width is cut short.

A string is clamped too, but then the line shows what is left of it, or nothing, and no
placeholder. `intact` asks for all of every string as well. Where it holds the walk returns
and shows every piece (`interleaveFrom_shown`), and a walk that shows every piece has met only
intact payloads (`Shown.intact`).
-/

namespace Ticklog

open Lib

/-- No fixed-width payload is cut short among those the next `n` placeholders read, their tags
being `tags`. A string is cut at the end of the record instead, and behind an unknown tag
nothing is read. -/
def whole : Nat → List UInt8 → List UInt8 → Bool
  | 0, _, _ => true
  | _ + 1, [], _ => true
  | n + 1, tag :: tags, bytes =>
    if tag.toNat = tagStr then whole n tags (Cursor.readLenPrefixed ⟨bytes⟩).2.rest
    else
      match fixedSizes[tag.toNat]? with
      | some size => decide (size ≤ bytes.length) && whole n tags (bytes.drop size)
      | none => true

/-- All of a string is there: both bytes of its length and as many bytes as they say. -/
def intactStr (bytes : List UInt8) : Bool :=
  decide (strLenPrefix ≤ bytes.length) &&
    decide (ofLe (bytes.take strLenPrefix) ≤ (bytes.drop strLenPrefix).length)

/-- As `whole`, and no string is cut short either. -/
def intact : Nat → List UInt8 → List UInt8 → Bool
  | 0, _, _ => true
  | _ + 1, [], _ => true
  | n + 1, tag :: tags, bytes =>
    if tag.toNat = tagStr then
      intactStr bytes && intact n tags (Cursor.readLenPrefixed ⟨bytes⟩).2.rest
    else
      match fixedSizes[tag.toNat]? with
      | some size => decide (size ≤ bytes.length) && intact n tags (bytes.drop size)
      | none => true

theorem intact_whole {n : Nat} {tags bytes : List UInt8} (h : intact n tags bytes = true) :
    whole n tags bytes = true := by
  induction n generalizing tags bytes with
  | zero => rfl
  | succ n ih =>
    cases tags with
    | nil => rfl
    | cons tag tags =>
      rw [intact] at h
      rw [whole]
      by_cases htag : tag.toNat = tagStr
      · rw [if_pos htag] at h ⊢
        exact ih ((Bool.and_eq_true _ _).mp h).2
      · rw [if_neg htag] at h ⊢
        cases hsize : fixedSizes[tag.toNat]? with
        | none => rfl
        | some size =>
          rw [hsize] at h
          obtain ⟨hroom, hrest⟩ := (Bool.and_eq_true _ _).mp h
          exact (Bool.and_eq_true _ _).mpr ⟨hroom, ih hrest⟩

/-- Payloads of the full width for each of the tags, all known, and anything behind them. -/
inductive FullWidth : List UInt8 → List UInt8 → Prop where
  | nil {rest : List UInt8} : FullWidth [] rest
  | fixed {tag : UInt8} {tags payload rest : List UInt8} :
      tag.toNat ≠ tagStr → fixedSizes[tag.toNat]? = some payload.length →
      FullWidth tags rest → FullWidth (tag :: tags) (payload ++ rest)
  | str {tag : UInt8} {tags len payload rest : List UInt8} :
      tag.toNat = tagStr → len.length = strLenPrefix → ofLe len = payload.length →
      FullWidth tags rest → FullWidth (tag :: tags) (len ++ (payload ++ rest))

/-- A string read back behind its length. -/
theorem readLenPrefixed_append {len payload : List UInt8} (hlen : len.length = strLenPrefix)
    (hof : ofLe len = payload.length) (rest : List UInt8) :
    Cursor.readLenPrefixed ⟨len ++ (payload ++ rest)⟩ = ((payload, ofLe len), ⟨rest⟩) := by
  have hroom : ¬ (len ++ (payload ++ rest)).length < 2 := by
    rw [List.length_append, hlen]
    unfold strLenPrefix
    omega
  have hread : Cursor.readU16 ⟨len ++ (payload ++ rest)⟩ = (ofLe len, ⟨payload ++ rest⟩) := by
    have htwo : len.length = 2 := hlen
    rw [Cursor.readU16, Cursor.readArray, if_neg hroom]
    simp only [List.take_left' htwo, List.drop_left' htwo]
  rw [Cursor.readLenPrefixed, hread]
  simp only [Cursor.readBytes, hof, List.take_left, List.drop_left]

theorem intactStr_append {len payload : List UInt8} (hlen : len.length = strLenPrefix)
    (hof : ofLe len = payload.length) (rest : List UInt8) :
    intactStr (len ++ (payload ++ rest)) = true := by
  unfold intactStr
  rw [← hlen, List.take_left, List.drop_left, hof]
  simp

theorem FullWidth.intact {tags bytes : List UInt8} (h : FullWidth tags bytes) (n : Nat) :
    intact n tags bytes = true := by
  induction h generalizing n with
  | nil => cases n <;> rfl
  | @fixed tag tags payload rest htag hsize hrest ih =>
    cases n with
    | zero => rfl
    | succ n =>
      rw [Ticklog.intact, if_neg htag, hsize]
      simp [ih n]
  | @str tag tags len payload rest htag hlen hof hrest ih =>
    cases n with
    | zero => rfl
    | succ n =>
      rw [Ticklog.intact, if_pos htag, readLenPrefixed_append hlen hof, intactStr_append hlen hof]
      exact ih n

/-! ## One argument -/

section

variable (std : Std)

theorem exactly_isSome (n : Nat) (data : List UInt8) :
    (exactly n data).isSome = decide (data.length = n) := by
  unfold exactly
  by_cases h : data.length = n <;> simp [h]

/-- A formatter takes a slice of the full width, and panics on a shorter one. -/
theorem formatter_isSome {tag size : Nat} {data : List UInt8} (spec : FormatSpec)
    (htag : tag ≠ tagStr) (hsize : fixedSizes[tag]? = some size) (hlen : data.length ≤ size) :
    (formatter std tag data spec).isSome = decide (data.length = size) := by
  have hhead : ∀ {f : UInt8 → List UInt8}, data.length ≤ 1 →
      (data.head?.map f).isSome = decide (data.length = 1) := by
    intro f h1
    rcases data with _ | ⟨b, _ | ⟨d, rest⟩⟩
    · rfl
    · rfl
    · simp at h1
  have hlt : tag < 11 := by
    have hbound : tag < 12 := by
      by_contra hge
      rw [List.getElem?_eq_none (by simpa [fixedSizes] using hge)] at hsize
      cases hsize
    unfold tagStr at htag
    omega
  have hcases : tag = 0 ∨ tag = 1 ∨ tag = 2 ∨ tag = 3 ∨ tag = 4 ∨ tag = 5 ∨ tag = 6 ∨ tag = 7 ∨
      tag = 8 ∨ tag = 9 ∨ tag = 10 := by omega
  rcases hcases with rfl | rfl | rfl | rfl | rfl | rfl | rfl | rfl | rfl | rfl | rfl <;>
    cases hsize
  · show ((exactly 8 data).map _).isSome = _
    rw [Option.isSome_map, exactly_isSome]
  · show ((exactly 8 data).map _).isSome = _
    rw [Option.isSome_map, exactly_isSome]
  · show ((exactly 8 data).map _).isSome = _
    rw [Option.isSome_map, exactly_isSome]
  · show ((exactly 4 data).map _).isSome = _
    rw [Option.isSome_map, exactly_isSome]
  · show ((exactly 4 data).map _).isSome = _
    rw [Option.isSome_map, exactly_isSome]
  · show ((exactly 4 data).map _).isSome = _
    rw [Option.isSome_map, exactly_isSome]
  · show ((exactly 2 data).map _).isSome = _
    rw [Option.isSome_map, exactly_isSome]
  · show ((exactly 2 data).map _).isSome = _
    rw [Option.isSome_map, exactly_isSome]
  · exact hhead hlen
  · exact hhead hlen
  · exact hhead hlen

theorem formatArg_str {tag : Nat} (htag : tag = tagStr) (spec : FormatSpec) (bytes : List UInt8) :
    ∃ text, formatArg std tag spec ⟨bytes⟩
      = some (true, (Cursor.readLenPrefixed ⟨bytes⟩).2, text) := by
  unfold formatArg
  rw [if_pos htag]
  exact ⟨_, rfl⟩

/-- A fixed-width argument is read where its payload is whole. -/
theorem formatArg_fixed {tag size : Nat} (htag : tag ≠ tagStr)
    (hsize : fixedSizes[tag]? = some size) (spec : FormatSpec) {bytes : List UInt8}
    (h : size ≤ bytes.length) :
    ∃ text, formatArg std tag spec ⟨bytes⟩ = some (true, ⟨bytes.drop size⟩, text) := by
  have hlen : (bytes.take size).length = size := by
    rw [List.length_take]
    omega
  have hsome := formatter_isSome std spec htag hsize (Nat.le_of_eq hlen)
  rw [hlen, decide_eq_true rfl] at hsome
  obtain ⟨text, htext⟩ := Option.isSome_iff_exists.mp hsome
  refine ⟨text, ?_⟩
  unfold formatArg
  rw [if_neg htag, hsize]
  simp only [Cursor.readBytes, htext, Option.map_some]

/-- Where it is cut short, the formatter panics. -/
theorem formatArg_cut {tag size : Nat} (htag : tag ≠ tagStr)
    (hsize : fixedSizes[tag]? = some size) (spec : FormatSpec) {bytes : List UInt8}
    (h : bytes.length < size) : formatArg std tag spec ⟨bytes⟩ = none := by
  have hlen : (bytes.take size).length = bytes.length := by
    rw [List.length_take]
    omega
  have hnone := formatter_isSome std spec htag hsize (Nat.le_of_lt (hlen ▸ h))
  rw [hlen, decide_eq_false (by omega)] at hnone
  have hnone : formatter std tag (bytes.take size) spec = none := by simpa using hnone
  unfold formatArg
  rw [if_neg htag, hsize]
  simp only [Cursor.readBytes, hnone, Option.map_none]

theorem formatArg_unknown {tag : Nat} (htag : tag ≠ tagStr) (hsize : fixedSizes[tag]? = none)
    (spec : FormatSpec) (c : Cursor) : formatArg std tag spec c = some (false, c, []) := by
  unfold formatArg
  rw [if_neg htag, hsize]

/-! ## The whole walk -/

/-- What a walk over the pieces of a format string shows, the tags still to come being `tags`
and the payloads from `bytes` on, which it uses up to `left`. Literal bytes are shown as they
are, a placeholder by its argument or by the text that stands for it; an argument counts as
shown only where all its bytes were there to read. After an unknown tag (`false`) only tags
are reported. -/
inductive Shown (std : Std) :
    List UInt8 → Bool → List UInt8 → List Piece → List UInt8 → List UInt8 → Prop where
  | done {tags bytes : List UInt8} {ok : Bool} : Shown std tags ok bytes [] [] bytes
  | text {tags bytes out left : List UInt8} {ok : Bool} {c : UInt8} {ps : List Piece} :
      Shown std tags ok bytes ps out left →
      Shown std tags ok bytes (.text c :: ps) (c :: out) left
  | missing {bytes content out left : List UInt8} {ok : Bool} {ps : List Piece} :
      Shown std [] ok bytes ps out left →
      Shown std [] ok bytes (.place content :: ps) (strBytes "<missing arg>" ++ out) left
  | value {tag : UInt8} {tags bytes rest content text out left : List UInt8} {ps : List Piece} :
      (tag.toNat = tagStr → intactStr bytes = true) →
      formatArg std tag.toNat (parseSpec content) ⟨bytes⟩ = some (true, ⟨rest⟩, text) →
      Shown std tags true rest ps out left →
      Shown std (tag :: tags) true bytes (.place content :: ps) (text ++ out) left
  | unknown {tag : UInt8} {tags bytes content out left : List UInt8} {ps : List Piece} :
      tag.toNat ≠ tagStr → fixedSizes[tag.toNat]? = none →
      Shown std tags false bytes ps out left →
      Shown std (tag :: tags) true bytes (.place content :: ps)
        (unknownTag tag.toNat ++ out) left
  | unread {tag : UInt8} {tags bytes content out left : List UInt8} {ps : List Piece} :
      Shown std tags false bytes ps out left →
      Shown std (tag :: tags) false bytes (.place content :: ps)
        (unknownTag tag.toNat ++ out) left

/-- The tag of the next argument, in terms of the tags still to come. -/
theorem getElem?_of_drop (tags : List UInt8) (argIdx : Nat) :
    (tags.drop argIdx = [] ∧ tags[argIdx]? = none ∧ tags.drop (argIdx + 1) = []) ∨
      ∃ tag, tags.drop argIdx = tag :: tags.drop (argIdx + 1) ∧ tags[argIdx]? = some tag := by
  rcases Nat.lt_or_ge argIdx tags.length with h | h
  · right
    exact ⟨tags[argIdx], (List.getElem_cons_drop h).symm, List.getElem?_eq_getElem h⟩
  · left
    refine ⟨List.drop_of_length_le h, List.getElem?_eq_none h, List.drop_of_length_le ?_⟩
    omega

/-- Where the payloads are intact the walk returns, and shows every piece. -/
theorem interleaveFrom_shown {tags rest : List UInt8} {ps : List Piece} (h : Reads rest ps)
    {fuel : Nat} (argIdx : Nat) (ok : Bool) {bytes : List UInt8} (buf : List UInt8)
    (hfuel : rest.length ≤ fuel)
    (hintact : ok = true → intact (placeholders ps) (tags.drop argIdx) bytes = true) :
    ∃ out left, interleaveFrom std tags fuel rest argIdx ok ⟨bytes⟩ buf
        = some (⟨left⟩, buf ++ out) ∧ Shown std (tags.drop argIdx) ok bytes ps out left := by
  induction h generalizing fuel argIdx ok bytes buf with
  | nil =>
    refine ⟨[], bytes, ?_, .done⟩
    rw [List.append_nil]
    cases fuel <;> rfl
  | @openEscape rest ps hreads ih =>
    cases fuel with
    | zero => simp at hfuel
    | succ fuel =>
      simp only [List.length_cons] at hfuel
      have hfuel : rest.length ≤ fuel := by omega
      obtain ⟨out, left, hrun, hshown⟩ := ih argIdx ok (buf ++ [openBrace]) hfuel hintact
      refine ⟨openBrace :: out, left, ?_, .text hshown⟩
      rw [interleaveFrom, if_pos rfl, if_pos (by simp), List.tail_cons, hrun, List.append_assoc]
      rfl
  | @closeEscape rest ps hreads ih =>
    cases fuel with
    | zero => simp at hfuel
    | succ fuel =>
      simp only [List.length_cons] at hfuel
      have hfuel : rest.length ≤ fuel := by omega
      obtain ⟨out, left, hrun, hshown⟩ := ih argIdx ok (buf ++ [closeBrace]) hfuel hintact
      refine ⟨closeBrace :: out, left, ?_, .text hshown⟩
      rw [interleaveFrom, if_neg openBrace_ne.symm, if_pos rfl, List.drop_one, List.tail_cons,
        hrun, List.append_assoc]
      rfl
  | @literal c rest ps hopen hclose hreads ih =>
    cases fuel with
    | zero => simp at hfuel
    | succ fuel =>
      simp only [List.length_cons] at hfuel
      have hfuel : rest.length ≤ fuel := by omega
      obtain ⟨out, left, hrun, hshown⟩ := ih argIdx ok (buf ++ [c]) hfuel hintact
      refine ⟨c :: out, left, ?_, .text hshown⟩
      rw [interleaveFrom, if_neg hopen, if_neg hclose, hrun, List.append_assoc]
      rfl
  | @placeholder content tail ps hcontent hat hreads ih =>
    cases fuel with
    | zero => simp at hfuel
    | succ fuel =>
      simp only [List.length_cons, List.length_append] at hfuel
      have hfuel : tail.length ≤ fuel := by omega
      obtain ⟨htake, hdrop⟩ := takeWhile_content hcontent tail
      -- once this placeholder's text is known, the walk goes on behind it
      have hgo : ∀ {ok' : Bool} {bytes' text : List UInt8},
          renderArg std tags (parseSpec content) argIdx ok ⟨bytes⟩ = some (ok', ⟨bytes'⟩, text) →
          (ok' = true →
            intact (placeholders ps) (tags.drop (argIdx + 1)) bytes' = true) →
          ∃ out left, interleaveFrom std tags (fuel + 1)
              (openBrace :: (content ++ closeBrace :: tail)) argIdx ok ⟨bytes⟩ buf
                = some (⟨left⟩, buf ++ (text ++ out)) ∧
              Shown std (tags.drop (argIdx + 1)) ok' bytes' ps out left := by
        intro ok' bytes' text harg hintact'
        obtain ⟨out, left, hrun, hshown⟩ := ih (argIdx + 1) ok' (buf ++ text) hfuel hintact'
        refine ⟨out, left, ?_, hshown⟩
        rw [interleaveFrom_place hat, htake, hdrop, harg, Option.bind_some, hrun,
          List.append_assoc]
      rw [placeholders] at hintact
      rcases getElem?_of_drop tags argIdx with
        ⟨hnil, hnone, hnext⟩ | ⟨tag, hcons, hsome⟩
      · -- no argument left
        have harg : renderArg std tags (parseSpec content) argIdx ok ⟨bytes⟩
            = some (ok, ⟨bytes⟩, strBytes "<missing arg>") := by
          rw [renderArg, hnone]
        obtain ⟨out, left, hrun, hshown⟩ := hgo harg fun _ => by
          rw [hnext]
          cases placeholders ps <;> rfl
        refine ⟨_, left, hrun, ?_⟩
        rw [hnext] at hshown
        rw [hnil]
        exact .missing hshown
      · rw [hcons]
        rw [hcons] at hintact
        cases ok with
        | false =>
          have harg : renderArg std tags (parseSpec content) argIdx false ⟨bytes⟩
              = some (false, ⟨bytes⟩, unknownTag tag.toNat) := by
            rw [renderArg, hsome]
            rfl
          obtain ⟨out, left, hrun, hshown⟩ := hgo harg fun hf => by cases hf
          exact ⟨_, left, hrun, .unread hshown⟩
        | true =>
          have hintact := hintact rfl
          rw [intact] at hintact
          have harg : ∀ {known : Bool} {c : Cursor} {text : List UInt8},
              formatArg std tag.toNat (parseSpec content) ⟨bytes⟩ = some (known, c, text) →
              renderArg std tags (parseSpec content) argIdx true ⟨bytes⟩
                = some (known, c, if known then text else unknownTag tag.toNat) := by
            intro known c text hformat
            rw [renderArg, hsome]
            simp [hformat]
          by_cases htag : tag.toNat = tagStr
          · rw [if_pos htag] at hintact
            obtain ⟨hstr, hintact⟩ := (Bool.and_eq_true _ _).mp hintact
            obtain ⟨text, htext⟩ := formatArg_str std htag (parseSpec content) bytes
            obtain ⟨out, left, hrun, hshown⟩ := hgo (harg htext) fun _ => hintact
            exact ⟨_, left, hrun, .value (fun _ => hstr) htext hshown⟩
          · rw [if_neg htag] at hintact
            cases hsize : fixedSizes[tag.toNat]? with
            | none =>
              have hformat := formatArg_unknown std htag hsize (parseSpec content) ⟨bytes⟩
              obtain ⟨out, left, hrun, hshown⟩ := hgo (harg hformat) fun hf => by cases hf
              exact ⟨_, left, hrun, .unknown htag hsize hshown⟩
            | some size =>
              rw [hsize] at hintact
              obtain ⟨hroom, hintact⟩ := (Bool.and_eq_true _ _).mp hintact
              obtain ⟨text, htext⟩ := formatArg_fixed std htag hsize (parseSpec content)
                (of_decide_eq_true hroom)
              obtain ⟨out, left, hrun, hshown⟩ := hgo (harg htext) fun _ => hintact
              exact ⟨_, left, hrun, .value (fun h => absurd h htag) htext hshown⟩

/-- A walk that shows every piece has found every payload intact. -/
theorem Shown.intact {std : Std} {tags bytes out left : List UInt8} {ok : Bool}
    {ps : List Piece} (h : Shown std tags ok bytes ps out left) (hok : ok = true) :
    Ticklog.intact (placeholders ps) tags bytes = true := by
  induction h with
  | done => rfl
  | text _ ih => exact ih hok
  | missing _ _ => rfl
  | @value tag tags bytes rest content text out left ps hstr hformat hrest ih =>
    have ih := ih rfl
    rw [placeholders, Ticklog.intact]
    by_cases htag : tag.toNat = tagStr
    · -- a string: the rest is what its length leaves over
      obtain ⟨text', htext⟩ := formatArg_str std htag (parseSpec content) bytes
      rw [htext] at hformat
      cases hformat
      rw [if_pos htag, hstr htag, Bool.true_and]
      exact ih
    · rw [if_neg htag]
      cases hsize : fixedSizes[tag.toNat]? with
      | none => rfl
      | some size =>
        rcases Nat.lt_or_ge bytes.length size with hshort | hroom
        · -- the formatter would have panicked
          rw [formatArg_cut std htag hsize (parseSpec content) hshort] at hformat
          cases hformat
        · obtain ⟨text', htext⟩ := formatArg_fixed std htag hsize (parseSpec content) hroom
          rw [htext] at hformat
          cases hformat
          simp only [hroom, decide_true, Bool.true_and]
          exact ih
  | unknown htag hsize _ _ => simp [placeholders, Ticklog.intact, htag, hsize]
  | unread _ _ => cases hok

end

/-! ## The line -/

section

variable (env : Env)

/-- What `render_pattern` puts for a field that is not the message. -/
def fieldText (line : Line) (field : Field) (spec : FormatSpec) : List UInt8 :=
  match field with
  | .timestamp => env.timestamp line.timestamp
  | .level => formatStr env.std line.level.asStr spec
  | .file => line.fileLine.elim [] fun f => formatBytes env f.1 spec
  | .line => line.fileLine.elim [] fun f => formatUnsigned f.2 spec
  | .threadName => line.threadName.elim [] fun name => formatStr env.std name spec
  | .threadId => strBytes "ThreadId(" ++ formatUnsigned line.threadId spec ++ strBytes ")"
  | .message => []

theorem renderPattern_field {line : Line} {tags : List UInt8} {field : Field} {spec : FormatSpec}
    (hfield : field ≠ .message) (rest : List Segment) (c : Cursor) (buf : List UInt8) :
    renderPattern env line tags (.place field spec :: rest) c buf
      = renderPattern env line tags rest c (buf ++ fieldText env line field spec) := by
  cases field with
  | message => exact absurd rfl hfield
  | _ => rfl

/-- What a walk over the pattern shows: literals as they are, fields by their text, and the
message as `Shown` has it, from the payloads `bytes` on to `left`. -/
inductive LineShown (line : Line) (tags : List UInt8) :
    List Segment → List UInt8 → List UInt8 → List UInt8 → Prop where
  | done {bytes : List UInt8} : LineShown line tags [] bytes [] bytes
  | lit {s bytes out left : List UInt8} {rest : List Segment} :
      LineShown line tags rest bytes out left →
      LineShown line tags (.lit s :: rest) bytes (s ++ out) left
  | field {field : Field} {spec : FormatSpec} {bytes out left : List UInt8}
      {rest : List Segment} :
      field ≠ .message → LineShown line tags rest bytes out left →
      LineShown line tags (.place field spec :: rest) bytes
        (fieldText env line field spec ++ out) left
  | message {spec : FormatSpec} {bytes mid msg out left : List UInt8} {ps : List Piece}
      {rest : List Segment} :
      Reads line.fmt ps → Shown env.std tags true bytes ps msg mid →
      LineShown line tags rest mid out left →
      LineShown line tags (.place .message spec :: rest) bytes (msg ++ out) left

theorem messages_cons (seg : Segment) (rest : List Segment) :
    messages (seg :: rest) = messages rest + if seg.isMessage then 1 else 0 := by
  unfold messages
  rw [List.countP_cons]

/-- Without the message, or with intact payloads, the walk over a pattern returns. -/
theorem renderPattern_shown {line : Line} {tags : List UInt8} {ps : List Piece}
    (hreads : Reads line.fmt ps) {template : List Segment} (hone : messages template ≤ 1)
    {bytes : List UInt8} (buf : List UInt8)
    (hintact : messages template = 0 ∨ intact (placeholders ps) tags bytes = true) :
    ∃ out left, renderPattern env line tags template ⟨bytes⟩ buf = some (⟨left⟩, buf ++ out) ∧
      LineShown env line tags template bytes out left := by
  induction template generalizing bytes buf with
  | nil =>
    refine ⟨[], bytes, ?_, .done⟩
    rw [List.append_nil]
    rfl
  | cons seg rest ih =>
    rw [messages_cons] at hone hintact
    cases seg with
    | lit s =>
      obtain ⟨out, left, hrun, hshown⟩ := ih hone (buf ++ s) hintact
      refine ⟨s ++ out, left, ?_, .lit hshown⟩
      rw [renderPattern, hrun, List.append_assoc]
    | place field spec =>
      by_cases hfield : field = .message
      · subst hfield
        have hrest : messages rest = 0 := by
          simp only [Segment.isMessage, if_true] at hone
          omega
        have hintact : intact (placeholders ps) tags bytes = true := by
          rcases hintact with h | h
          · simp [Segment.isMessage] at h
          · exact h
        obtain ⟨msg, mid, hrun, hmsg⟩ := interleaveFrom_shown env.std hreads 0 true buf
          (Nat.le_refl _) fun _ => hintact
        obtain ⟨out, left, hnext, hshown⟩ := ih (by omega) (buf ++ msg) (Or.inl hrest)
        refine ⟨msg ++ out, left, ?_, .message hreads hmsg hshown⟩
        have hinter : interleave env.std line.fmt tags ⟨bytes⟩ buf = some (⟨mid⟩, buf ++ msg) :=
          hrun
        rw [renderPattern]
        simp only [hinter, Option.bind_eq_bind, Option.bind_some, hnext, List.append_assoc]
      · have hno : Segment.isMessage (.place field spec) = false := by
          cases field <;> first | rfl | exact absurd rfl hfield
        rw [hno] at hone hintact
        obtain ⟨out, left, hrun, hshown⟩ := ih hone (buf ++ fieldText env line field spec) hintact
        refine ⟨fieldText env line field spec ++ out, left, ?_, .field hfield hshown⟩
        rw [renderPattern_field env hfield, hrun, List.append_assoc]

/-- A line that shows its message has found the message's payloads intact. -/
theorem LineShown.intact {env : Env} {line : Line} {tags bytes out left : List UInt8}
    {template : List Segment} {ps : List Piece} (hreads : Reads line.fmt ps)
    (h : LineShown env line tags template bytes out left) (hmessage : 0 < messages template) :
    Ticklog.intact (placeholders ps) tags bytes = true := by
  induction h with
  | done => cases hmessage
  | lit _ ih => exact ih (by simpa [messages_cons, Segment.isMessage] using hmessage)
  | @field field spec bytes out left rest hfield _ ih =>
    have hno : Segment.isMessage (.place field spec) = false := by
      cases field <;> first | rfl | exact absurd rfl hfield
    rw [messages_cons, hno] at hmessage
    exact ih hmessage
  | message hreads' hmsg _ _ =>
    rw [hreads.unique hreads']
    exact hmsg.intact rfl

end

end Ticklog
