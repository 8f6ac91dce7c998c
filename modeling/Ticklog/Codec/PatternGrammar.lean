import Ticklog.Codec.PatternSlices
import Ticklog.Codec.SpecGrammar
import Ticklog.Codec.Payload

/-!
# The patterns `Template::parse` accepts and what they render (`src/format.rs`, `src/drain.rs`)

A pattern is a sequence of `Part`s: bytes that stand for themselves, doubled braces, and
placeholders. A placeholder ends at its first `}`, so its spec has none. The loop of
`Template::parse` accepts exactly the texts of such sequences with at most one message
(`parseTemplate_parts`, `exists_parts`), and the segments it emits are `segmentsOf` the parts:
the open span is flushed in front of everything that is not a plain byte. Walking these segments
puts down each part in its place (`renderPattern_parts`), so what a line shows can be read off
the pattern, part by part.
-/

namespace Ticklog

open Lib

/-- The name `Field::from_str` knows a field by. -/
def Field.name : Field → List UInt8
  | .timestamp => strBytes "timestamp"
  | .level => strBytes "level"
  | .file => strBytes "file"
  | .line => strBytes "line"
  | .threadName => strBytes "thread_name"
  | .threadId => strBytes "thread_id"
  | .message => strBytes "message"

/-- A part of a pattern. -/
inductive Part where
  /-- A byte of literal text. -/
  | plain (c : UInt8)
  /-- `{{` -/
  | openEscape
  /-- `}}` -/
  | closeEscape
  /-- `{field}` or `{field:spec}` -/
  | place (field : Field) (spec : Option Derivation)

namespace Part

/-- The part as it is written. -/
def text : Part → List UInt8
  | .plain c => [c]
  | .openEscape => [openBrace, openBrace]
  | .closeEscape => [closeBrace, closeBrace]
  | .place field spec =>
    openBrace :: (field.name ++ ((spec.elim [] fun d => colon :: d.text) ++ [closeBrace]))

/-- The part is one of the grammar: literal text has no braces, a spec has no `}`, and the
message and the timestamp take no spec. -/
def Ok : Part → Prop
  | .plain c => c ≠ openBrace ∧ c ≠ closeBrace
  | .openEscape | .closeEscape => True
  | .place field spec =>
    ∀ d ∈ spec, field ≠ .message ∧ field ≠ .timestamp ∧ closeBrace ∉ d.text

/-- Its spec is derived as it is read. -/
def FlagFirst : Part → Prop
  | .place _ spec => ∀ d ∈ spec, d.FlagFirst
  | _ => True

def isMessage : Part → Bool
  | .place .message _ => true
  | _ => false

end Part

/-- The text of a sequence of parts. -/
def patternText (parts : List Part) : List UInt8 := parts.flatMap Part.text

/-- The sequence is a pattern: its parts are, and the message comes at most once. -/
def IsPattern (parts : List Part) : Prop :=
  (∀ p ∈ parts, p.Ok) ∧ parts.countP Part.isMessage ≤ 1

/-- The segments of a pattern, the span `lit` being open. -/
def segmentsOf : List UInt8 → List Part → List Segment
  | lit, [] => flushLit lit
  | lit, .plain c :: parts => segmentsOf (lit ++ [c]) parts
  | lit, .openEscape :: parts => flushLit lit ++ .lit [openBrace] :: segmentsOf [] parts
  | lit, .closeEscape :: parts => flushLit lit ++ .lit [closeBrace] :: segmentsOf [] parts
  | lit, .place field spec :: parts =>
    flushLit lit ++ .place field (spec.elim FormatSpec.default Derivation.spec)
      :: segmentsOf [] parts

/-! ## Placeholders -/

theorem fromStr_iff (name : List UInt8) (field : Field) :
    Field.fromStr name = .ok field ↔ name = field.name := by
  constructor
  · intro h
    unfold Field.fromStr at h
    repeat' split at h
    all_goals first | (cases h; assumption) | cases h
  · rintro rfl
    cases field <;> decide

/-- A field's name has no digit, colon or brace, and is not empty. -/
theorem name_plain (field : Field) :
    field.name ≠ [] ∧ field.name.all isDigit = false ∧
      ∀ c ∈ field.name, (c != colon && c != closeBrace) = true := by
  refine ⟨by cases field <;> decide, by cases field <;> decide, ?_⟩
  have hall : field.name.all (fun c => c != colon && c != closeBrace) = true := by
    cases field <;> decide
  exact List.all_eq_true.mp hall

theorem parseSpecBody_derivation {d : Derivation} (h : d.FlagFirst) :
    parseSpecBody d.text = d.spec := by
  rw [← d.parts_text h, (d.parts h).parseSpecBody_text, d.parts_spec h]

/-- What stands between a placeholder's name and the rest of the pattern. -/
def specText (spec : Option Derivation) (after : List UInt8) : List UInt8 :=
  (spec.elim [] fun d => colon :: d.text) ++ closeBrace :: after

/-- Up to its first `}` a list without one is taken. -/
theorem takeWhile_close {body : List UInt8} (h : closeBrace ∉ body) (after : List UInt8) :
    (body ++ closeBrace :: after).takeWhile (· != closeBrace) = body ∧
      (body ++ closeBrace :: after).dropWhile (· != closeBrace) = closeBrace :: after := by
  have hpos : ∀ c ∈ body, (c != closeBrace) = true := fun c hc =>
    bne_iff_ne.mpr fun heq => h (heq ▸ hc)
  rw [List.takeWhile_append_of_pos hpos, List.dropWhile_append_of_pos hpos]
  refine ⟨?_, List.dropWhile_cons_of_neg (by decide)⟩
  rw [List.takeWhile_cons_of_neg (by decide), List.append_nil]

theorem parsePlaceSpec_part {spec : Option Derivation}
    (hok : ∀ d ∈ spec, d.FlagFirst ∧ closeBrace ∉ d.text) (after : List UInt8) :
    parsePlaceSpec (specText spec after)
      = .ok (spec.elim FormatSpec.default Derivation.spec, after) := by
  cases spec with
  | none =>
    show parsePlaceSpec (closeBrace :: after) = _
    rw [parsePlaceSpec, if_neg (by decide)]
    rfl
  | some d =>
    obtain ⟨hfirst, hclose⟩ := hok d rfl
    show parsePlaceSpec (colon :: (d.text ++ closeBrace :: after)) = _
    obtain ⟨htake, hdrop⟩ := takeWhile_close hclose after
    rw [parsePlaceSpec, if_pos rfl]
    simp only [htake, hdrop, d.validate, parseSpecBody_derivation hfirst]
    rfl

/-- A placeholder of the grammar is read as what it is. -/
theorem parsePlace_part {field : Field} {spec : Option Derivation} {seenMessage : Bool}
    (hok : (Part.place field spec).Ok) (hfirst : (Part.place field spec).FlagFirst)
    (hseen : field = .message → seenMessage = false) (after : List UInt8) :
    parsePlace seenMessage (field.name ++ specText spec after)
      = .ok (field, spec.elim FormatSpec.default Derivation.spec, after) := by
  obtain ⟨hne, hdigits, hplain⟩ := name_plain field
  obtain ⟨d, tail, hspec, hstop⟩ : ∃ d tail, specText spec after = d :: tail ∧
      (d != colon && d != closeBrace) = false := by
    cases spec with
    | none => exact ⟨closeBrace, after, rfl, by decide⟩
    | some d => exact ⟨colon, d.text ++ closeBrace :: after, rfl, by decide⟩
  have htake : (field.name ++ specText spec after).takeWhile
      (fun c => c != colon && c != closeBrace) = field.name := by
    rw [List.takeWhile_append_of_pos hplain, hspec,
      List.takeWhile_cons_of_neg (by rw [hstop]; decide), List.append_nil]
  have hdrop : (field.name ++ specText spec after).dropWhile
      (fun c => c != colon && c != closeBrace) = specText spec after := by
    rw [List.dropWhile_append_of_pos hplain, hspec,
      List.dropWhile_cons_of_neg (by rw [hstop]; decide)]
  have hcolon : at? colon (specText spec after) = true → ∃ d, d ∈ spec := by
    intro hat
    cases spec with
    | none =>
      obtain ⟨tail, heq⟩ := at?_iff.mp hat
      exact absurd (List.cons.inj heq).1 (by decide)
    | some d => exact ⟨d, rfl⟩
  unfold parsePlace
  simp only [htake, hdrop]
  rw [hspec, List.isEmpty_cons, if_neg (by decide), hdigits, Bool.and_false,
    if_neg (by decide), if_neg (by rw [List.isEmpty_iff]; exact hne),
    (fromStr_iff _ _).mpr rfl, ← hspec]
  have hbind : ∀ {β : Type} (f : Field → Except PatternError β),
      (Except.ok field >>= f) = f field := fun _ => rfl
  rw [hbind, if_neg, if_neg, if_neg, parsePlaceSpec_part fun d hd => ⟨hfirst d hd, (hok d hd).2.2⟩]
  · rfl
  · rintro ⟨rfl, hat⟩
    obtain ⟨d, hd⟩ := hcolon hat
    exact (hok d hd).2.1 rfl
  · rintro ⟨rfl, hat⟩
    obtain ⟨d, hd⟩ := hcolon hat
    exact (hok d hd).1 rfl
  · rintro ⟨rfl, htrue⟩
    rw [hseen rfl] at htrue
    cases htrue

theorem parsePlaceSpec_sound {d : UInt8} {tail after : List UInt8} {fs : FormatSpec}
    (hd : (d != colon && d != closeBrace) = false)
    (h : parsePlaceSpec (d :: tail) = .ok (fs, after)) :
    ∃ spec : Option Derivation, (∀ d ∈ spec, d.FlagFirst ∧ closeBrace ∉ d.text) ∧
      d :: tail = specText spec after ∧ (at? colon (d :: tail) = false → spec = none) := by
  dsimp only [parsePlaceSpec] at h
  split at h
  next hcolon =>
    subst hcolon
    have hbody : closeBrace ∉ tail.takeWhile (· != closeBrace) := fun hm =>
      absurd (List.mem_takeWhile_imp hm) (by decide)
    have hsplit := List.takeWhile_append_dropWhile (p := (· != closeBrace)) (l := tail)
    simp only at h
    split at h
    next => cases h
    next e after' hdrop =>
      have he : e = closeBrace := by
        have hhead := List.head?_dropWhile_not (· != closeBrace) tail
        rw [hdrop] at hhead
        simpa using hhead
      subst he
      cases hvalid : validateSpecRt (tail.takeWhile (· != closeBrace)) with
      | error err =>
        rw [hvalid] at h
        cases h
      | ok _ =>
        rw [hvalid] at h
        cases h
        obtain ⟨d, hfirst, htext⟩ := exists_derivation hbody hvalid
        refine ⟨some d, ?_, ?_, fun hat => absurd (at?_iff.mpr ⟨tail, rfl⟩) (by rw [hat]; decide)⟩
        · rintro _ ⟨⟩
          rw [htext]
          exact ⟨hfirst, hbody⟩
        · rw [hdrop, ← htext] at hsplit
          rw [← hsplit]
          rfl
  next hcolon =>
    cases h
    have hclose : d = closeBrace := by
      by_contra hne
      simp [hcolon, hne] at hd
    subst hclose
    exact ⟨none, nofun, rfl, fun _ => rfl⟩

/-- What is read as a placeholder is one of the grammar. -/
theorem parsePlace_sound {seenMessage : Bool} {rest after : List UInt8} {field : Field}
    {fs : FormatSpec} (h : parsePlace seenMessage rest = .ok (field, fs, after)) :
    ∃ spec : Option Derivation, (Part.place field spec).Ok ∧
      (Part.place field spec).FlagFirst ∧ rest = field.name ++ specText spec after ∧
      (field = .message → seenMessage = false) := by
  have hsplit := List.takeWhile_append_dropWhile
    (p := fun c => c != colon && c != closeBrace) (l := rest)
  unfold parsePlace at h
  simp only at h
  cases hdrop : rest.dropWhile (fun c => c != colon && c != closeBrace) with
  | nil =>
    rw [hdrop] at h
    cases h
  | cons d tail =>
    have hd : (d != colon && d != closeBrace) = false := by
      have hhead := List.head?_dropWhile_not (fun c => c != colon && c != closeBrace) rest
      rw [hdrop] at hhead
      simpa using hhead
    rw [hdrop] at h hsplit
    split at h
    next => cases h
    next =>
      split at h
      next => cases h
      next =>
        split at h
        next => cases h
        next =>
          cases hfield : Field.fromStr (rest.takeWhile fun c => c != colon && c != closeBrace) with
          | error e =>
            rw [hfield] at h
            cases h
          | ok f =>
            rw [hfield] at h
            change (if f = .message ∧ seenMessage = true then _ else _) = _ at h
            split at h
            next => cases h
            next hseen =>
              split at h
              next => cases h
              next hmessage =>
                split at h
                next => cases h
                next htimestamp =>
                  cases hspec : parsePlaceSpec (d :: tail) with
                  | error e =>
                    rw [hspec] at h
                    cases h
                  | ok r =>
                    obtain ⟨fs', after'⟩ := r
                    rw [hspec] at h
                    cases h
                    obtain ⟨spec, hok, htext, hnone⟩ := parsePlaceSpec_sound hd hspec
                    -- a spec starts with the colon that both checks look for
                    have hat : ∀ e ∈ spec, at? colon (d :: tail) = true := by
                      intro e he
                      by_contra hno
                      rw [hnone (by simpa using hno)] at he
                      cases he
                    refine ⟨spec, fun e he => ⟨fun hf => hmessage ⟨hf, hat e he⟩,
                      fun hf => htimestamp ⟨hf, hat e he⟩, (hok e he).2⟩,
                      fun e he => (hok e he).1, ?_, fun hm => ?_⟩
                    · rw [← hsplit, (fromStr_iff _ _).mp hfield, htext]
                    · by_contra hc
                      exact hseen ⟨hm, by simpa using hc⟩

/-! ## The loop -/

theorem patternText_cons (p : Part) (parts : List Part) :
    patternText (p :: parts) = p.text ++ patternText parts := List.flatMap_cons

theorem place_text (field : Field) (spec : Option Derivation) (parts : List Part) :
    patternText (.place field spec :: parts)
      = openBrace :: (field.name ++ specText spec (patternText parts)) := by
  rw [patternText_cons, Part.text, specText]
  simp only [List.cons_append, List.append_assoc, List.nil_append]

theorem messages_parts_cons (p : Part) (parts : List Part) :
    (p :: parts).countP Part.isMessage
      = parts.countP Part.isMessage + if p.isMessage then 1 else 0 := List.countP_cons ..

/-- The loop reads the parts and emits their segments. -/
theorem parseTemplateFrom_parts {parts : List Part} {fuel : Nat} {lit : List UInt8}
    {segments : List Segment} {seenMessage : Bool} (hok : ∀ p ∈ parts, p.Ok)
    (hfirst : ∀ p ∈ parts, p.FlagFirst) (hfuel : (patternText parts).length ≤ fuel)
    (hone : parts.countP Part.isMessage ≤ if seenMessage then 0 else 1) :
    parseTemplateFrom fuel (patternText parts) lit segments seenMessage
      = .ok (segments ++ segmentsOf lit parts) := by
  induction parts generalizing fuel lit segments seenMessage with
  | nil =>
    show parseTemplateFrom fuel [] lit segments seenMessage = _
    rw [parseTemplateFrom]
    rfl
  | cons p parts ih =>
    have hok' : ∀ q ∈ parts, q.Ok := fun q hq => hok q (List.mem_cons_of_mem _ hq)
    have hfirst' : ∀ q ∈ parts, q.FlagFirst := fun q hq => hfirst q (List.mem_cons_of_mem _ hq)
    have hp := hok p List.mem_cons_self
    rw [messages_parts_cons] at hone
    cases p with
    | plain c =>
      have htext : patternText (.plain c :: parts) = c :: patternText parts := rfl
      rw [htext] at hfuel ⊢
      cases fuel with
      | zero => cases hfuel
      | succ fuel =>
        rw [parseTemplateFrom, if_neg hp.1, if_neg hp.2]
        exact ih hok' hfirst' (Nat.le_of_succ_le_succ hfuel) hone
    | openEscape =>
      have htext : patternText (.openEscape :: parts)
          = openBrace :: openBrace :: patternText parts := rfl
      rw [htext] at hfuel ⊢
      cases fuel with
      | zero => cases hfuel
      | succ fuel =>
        rw [parseTemplateFrom, if_pos rfl, if_pos (at?_iff.mpr ⟨_, rfl⟩), List.tail_cons,
          ih hok' hfirst' (by simp only [List.length_cons] at hfuel; omega) hone]
        simp only [segmentsOf, List.append_assoc, List.cons_append, List.nil_append]
    | closeEscape =>
      have htext : patternText (.closeEscape :: parts)
          = closeBrace :: closeBrace :: patternText parts := rfl
      rw [htext] at hfuel ⊢
      cases fuel with
      | zero => cases hfuel
      | succ fuel =>
        rw [parseTemplateFrom, if_neg openBrace_ne.symm, if_pos rfl,
          if_pos (at?_iff.mpr ⟨_, rfl⟩), List.tail_cons,
          ih hok' hfirst' (by simp only [List.length_cons] at hfuel; omega) hone]
        simp only [segmentsOf, List.append_assoc, List.cons_append, List.nil_append]
    | place field spec =>
      rw [place_text] at hfuel ⊢
      cases fuel with
      | zero => cases hfuel
      | succ fuel =>
        have hseen : field = .message → seenMessage = false := by
          rintro rfl
          by_contra htrue
          rw [if_pos (show Part.isMessage (.place .message spec) = true from rfl),
            if_pos (by simpa using htrue)] at hone
          omega
        have hopen : at? openBrace (field.name ++ specText spec (patternText parts)) = false := by
          cases field <;> rfl
        rw [parseTemplateFrom, if_pos rfl, if_neg (by rw [hopen]; decide),
          parsePlace_part hp (hfirst _ List.mem_cons_self) hseen]
        show parseTemplateFrom fuel (patternText parts) [] _ _ = _
        rw [ih hok' hfirst' ?_ ?_]
        · simp only [segmentsOf, List.append_assoc, List.cons_append, List.nil_append]
        · unfold specText at hfuel
          simp only [List.length_cons, List.length_append] at hfuel
          omega
        · by_cases hm : field = .message
          · subst hm
            rw [if_pos (show Part.isMessage (.place .message spec) = true from rfl)] at hone
            simp only [decide_true, Bool.or_true, if_true]
            split at hone <;> omega
          · simp only [hm, decide_false, Bool.or_false]
            omega

/-- `parts` are a reading of `rest`, behind a message if one was seen. -/
def PartsOf (rest : List UInt8) (seenMessage : Bool) (parts : List Part) : Prop :=
  patternText parts = rest ∧ (∀ p ∈ parts, p.Ok) ∧ (∀ p ∈ parts, p.FlagFirst) ∧
    parts.countP Part.isMessage ≤ if seenMessage then 0 else 1

theorem PartsOf.nil (seenMessage : Bool) : PartsOf [] seenMessage [] :=
  ⟨rfl, List.forall_mem_nil _, List.forall_mem_nil _, Nat.zero_le _⟩

theorem PartsOf.cons {p : Part} {parts : List Part} {rest text : List UInt8}
    {seen seenMessage : Bool} (hp : p.Ok) (hf : p.FlagFirst) (htext : p.text ++ rest = text)
    (hle : (if seen then 0 else 1) + (if p.isMessage then 1 else 0)
      ≤ (if seenMessage then 0 else 1)) (h : PartsOf rest seen parts) :
    PartsOf text seenMessage (p :: parts) := by
  obtain ⟨hrest, hok, hfirst, hcount⟩ := h
  refine ⟨?_, List.forall_mem_cons.mpr ⟨hp, hok⟩, List.forall_mem_cons.mpr ⟨hf, hfirst⟩, ?_⟩
  · rw [patternText_cons, hrest, htext]
  · rw [messages_parts_cons]
    omega

/-- What the loop accepts are parts. -/
theorem exists_partsOf {fuel : Nat} {rest lit : List UInt8} {segments out : List Segment}
    {seenMessage : Bool} (h : parseTemplateFrom fuel rest lit segments seenMessage = .ok out) :
    ∃ parts, PartsOf rest seenMessage parts := by
  induction fuel generalizing rest lit segments seenMessage with
  | zero =>
    cases rest with
    | nil => exact ⟨[], .nil seenMessage⟩
    | cons c rest => cases h
  | succ fuel ih =>
    cases rest with
    | nil => exact ⟨[], .nil seenMessage⟩
    | cons c rest =>
      rw [parseTemplateFrom] at h
      split at h
      next hopen =>
        subst hopen
        split at h
        next hat =>
          obtain ⟨tail, rfl⟩ := at?_iff.mp hat
          obtain ⟨parts, hparts⟩ := ih h
          exact ⟨.openEscape :: parts, hparts.cons trivial trivial rfl (Nat.le_refl _)⟩
        next =>
          cases hplace : parsePlace seenMessage rest with
          | error e =>
            rw [hplace] at h
            cases h
          | ok r =>
            obtain ⟨field, fs, after⟩ := r
            rw [hplace] at h
            obtain ⟨parts, hparts⟩ := ih h
            obtain ⟨spec, hok, hfirst, htext, hseen⟩ := parsePlace_sound hplace
            refine ⟨.place field spec :: parts, hparts.cons hok hfirst ?_ ?_⟩
            · rw [htext, Part.text, specText]
              simp only [List.cons_append, List.append_assoc, List.nil_append]
            · by_cases hm : field = .message
              · subst hm
                rw [hseen rfl]
                exact Nat.le_refl _
              · have hno : Part.isMessage (.place field spec) = false := by
                  cases field <;> first | rfl | exact absurd rfl hm
                rw [hno]
                simp only [hm, decide_false, Bool.or_false]
                exact Nat.le_refl _
      next hopen =>
        split at h
        next hclose =>
          subst hclose
          split at h
          next hat =>
            obtain ⟨tail, rfl⟩ := at?_iff.mp hat
            obtain ⟨parts, hparts⟩ := ih h
            exact ⟨.closeEscape :: parts, hparts.cons trivial trivial rfl (Nat.le_refl _)⟩
          next => cases h
        next hclose =>
          obtain ⟨parts, hparts⟩ := ih h
          exact ⟨.plain c :: parts, hparts.cons ⟨hopen, hclose⟩ trivial rfl (Nat.le_refl _)⟩

/-- A pattern may be derived with each spec as it is read. -/
theorem exists_flagFirst_parts {parts : List Part} (h : IsPattern parts) :
    ∃ parts', patternText parts' = patternText parts ∧ IsPattern parts' ∧
      ∀ p ∈ parts', p.FlagFirst := by
  have hpart : ∀ p : Part, p.Ok → ∃ p' : Part, p'.text = p.text ∧ p'.Ok ∧ p'.FlagFirst ∧
      p'.isMessage = p.isMessage := by
    intro p hp
    cases p with
    | place field spec =>
      cases spec with
      | none => exact ⟨.place field none, rfl, hp, nofun, rfl⟩
      | some d =>
        obtain ⟨d', hfirst, htext⟩ := d.exists_flagFirst
        refine ⟨.place field (some d'), ?_, ?_, ?_, ?_⟩
        · show openBrace :: (field.name ++ ((colon :: d'.text) ++ [closeBrace])) = _
          rw [htext]
          rfl
        · rintro _ ⟨⟩
          rw [htext]
          exact hp d rfl
        · rintro _ ⟨⟩
          exact hfirst
        · cases field <;> rfl
    | plain c => exact ⟨.plain c, rfl, hp, trivial, rfl⟩
    | openEscape => exact ⟨.openEscape, rfl, trivial, trivial, rfl⟩
    | closeEscape => exact ⟨.closeEscape, rfl, trivial, trivial, rfl⟩
  have hall : ∀ parts : List Part, (∀ p ∈ parts, p.Ok) → ∃ parts', patternText parts'
      = patternText parts ∧ (∀ p ∈ parts', p.Ok) ∧ (∀ p ∈ parts', p.FlagFirst) ∧
      parts'.countP Part.isMessage = parts.countP Part.isMessage := by
    intro parts
    induction parts with
    | nil => exact fun _ => ⟨[], rfl, List.forall_mem_nil _, List.forall_mem_nil _, rfl⟩
    | cons p parts ih =>
      intro hok
      obtain ⟨hp, hrest⟩ := List.forall_mem_cons.mp hok
      obtain ⟨p', htext, hp', hfirst, hm⟩ := hpart p hp
      obtain ⟨parts', htexts, hoks, hfirsts, hms⟩ := ih hrest
      refine ⟨p' :: parts', ?_, List.forall_mem_cons.mpr ⟨hp', hoks⟩,
        List.forall_mem_cons.mpr ⟨hfirst, hfirsts⟩, ?_⟩
      · rw [patternText_cons, patternText_cons, htext, htexts]
      · rw [messages_parts_cons, messages_parts_cons, hm, hms]
  obtain ⟨parts', htext, hok, hfirst, hcount⟩ := hall parts h.1
  exact ⟨parts', htext, ⟨hok, hcount ▸ h.2⟩, hfirst⟩

/-! ## Rendering -/

/-- `interleave` only appends. -/
theorem interleaveFrom_append (std : Std) (tags pre : List UInt8) {fuel : Nat}
    {rest : List UInt8} {argIdx : Nat} {parseOk : Bool} {c : Cursor} {buf : List UInt8} :
    interleaveFrom std tags fuel rest argIdx parseOk c (pre ++ buf)
      = (interleaveFrom std tags fuel rest argIdx parseOk c buf).map
          fun r => (r.1, pre ++ r.2) := by
  induction fuel generalizing rest argIdx parseOk c buf with
  | zero => cases rest <;> rfl
  | succ fuel ih =>
    cases rest with
    | nil => rfl
    | cons b rest =>
      simp only [interleaveFrom, List.append_assoc]
      split
      next =>
        split
        next => exact ih
        next =>
          split
          next =>
            split
            next =>
              split
              next => exact ih
              next => exact ih
              next => rfl
            next => exact ih
          next => exact ih
      next =>
        split
        next => exact ih
        next => exact ih

section

variable (env : Env) (line : Line) (tags : List UInt8)

/-- What a part stands for, the message being `msg`. -/
def Part.shown (msg : List UInt8) : Part → List UInt8
  | .plain c => [c]
  | .openEscape => [openBrace]
  | .closeEscape => [closeBrace]
  | .place .message _ => msg
  | .place field spec => fieldText env line field (spec.elim FormatSpec.default Derivation.spec)

/-- The pattern with each part replaced by what it stands for. -/
def expand (msg : List UInt8) (parts : List Part) : List UInt8 :=
  parts.flatMap (Part.shown env line msg)

/-- The message, where the pattern asks for it, and the cursor behind its arguments. -/
def messageOf (parts : List Part) (c : Cursor) : Option (Cursor × List UInt8) :=
  if parts.any Part.isMessage then interleave env.std line.fmt tags c [] else some (c, [])

theorem renderPattern_flush (lit : List UInt8) (rest : List Segment) (c : Cursor)
    (buf : List UInt8) :
    renderPattern env line tags (flushLit lit ++ rest) c buf
      = renderPattern env line tags rest c (buf ++ lit) := by
  unfold flushLit
  split
  next hnil =>
    rw [List.isEmpty_iff.mp hnil, List.append_nil]
    rfl
  next => rfl

theorem expand_cons (msg : List UInt8) (p : Part) (parts : List Part) :
    expand env line msg (p :: parts) = p.shown env line msg ++ expand env line msg parts :=
  List.flatMap_cons

theorem expand_noMessage {parts : List Part} (h : parts.any Part.isMessage = false)
    (msg : List UInt8) : expand env line msg parts = expand env line [] parts := by
  induction parts with
  | nil => rfl
  | cons p parts ih =>
    rw [List.any_cons, Bool.or_eq_false_iff] at h
    rw [expand_cons, expand_cons, ih h.2]
    congr 1
    cases p with
    | place field spec => cases field <;> first | rfl | cases h.1
    | _ => rfl

/-- Walking the segments of a pattern puts down its expansion. -/
theorem renderPattern_parts {parts : List Part} (hone : parts.countP Part.isMessage ≤ 1)
    (lit : List UInt8) (c : Cursor) (buf : List UInt8) :
    renderPattern env line tags (segmentsOf lit parts) c buf
      = (messageOf env line tags parts c).map
          fun r => (r.1, buf ++ lit ++ expand env line r.2 parts) := by
  induction parts generalizing lit c buf with
  | nil =>
    show renderPattern env line tags (flushLit lit) c buf = some (c, buf ++ lit ++ [])
    have hflush := renderPattern_flush env line tags lit [] c buf
    rw [List.append_nil] at hflush
    rw [hflush, List.append_nil]
    rfl
  | cons p parts ih =>
    rw [messages_parts_cons] at hone
    -- a part that is not the message, put down behind the open span
    have hother : ∀ (lit' : List UInt8) (c : Cursor) (buf' : List UInt8), p.isMessage = false →
        buf' ++ lit' = buf ++ lit ++ p.shown env line [] →
        renderPattern env line tags (segmentsOf lit' parts) c buf'
          = (messageOf env line tags (p :: parts) c).map
              fun r => (r.1, buf ++ lit ++ expand env line r.2 (p :: parts)) := by
      intro lit' c buf' hno htext
      have hshown : ∀ msg, p.shown env line msg = p.shown env line [] := by
        intro msg
        have h := expand_noMessage env line (show [p].any Part.isMessage = false by simp [hno]) msg
        simpa [expand] using h
      have hmessage : messageOf env line tags (p :: parts) c = messageOf env line tags parts c := by
        unfold messageOf
        rw [List.any_cons, hno, Bool.false_or]
      rw [ih (by omega), hmessage]
      refine congrArg (Option.map · _) (funext fun r => ?_)
      rw [expand_cons, hshown r.2, htext, List.append_assoc]
    cases p with
    | plain b => exact hother (lit ++ [b]) c buf rfl (List.append_assoc _ _ _).symm
    | openEscape =>
      rw [segmentsOf, renderPattern_flush]
      exact hother [] c (buf ++ lit ++ [openBrace]) rfl (List.append_nil _)
    | closeEscape =>
      rw [segmentsOf, renderPattern_flush]
      exact hother [] c (buf ++ lit ++ [closeBrace]) rfl (List.append_nil _)
    | place field spec =>
      rw [segmentsOf, renderPattern_flush]
      by_cases hm : field = .message
      · subst hm
        have hrest : parts.any Part.isMessage = false := by
          rw [if_pos (show Part.isMessage (.place .message spec) = true from rfl)] at hone
          have hzero : parts.countP Part.isMessage = 0 := by omega
          rw [List.countP_eq_zero] at hzero
          rw [List.any_eq_false]
          exact hzero
        have hinter : interleave env.std line.fmt tags c (buf ++ lit)
            = (interleave env.std line.fmt tags c []).map
                fun r => (r.1, buf ++ lit ++ r.2) := by
          have happend : interleave env.std line.fmt tags c (buf ++ lit ++ [])
              = (interleave env.std line.fmt tags c []).map fun r => (r.1, buf ++ lit ++ r.2) :=
            interleaveFrom_append env.std tags (buf ++ lit)
          rwa [List.append_nil] at happend
        have hmessage : messageOf env line tags (.place .message spec :: parts) c
            = interleave env.std line.fmt tags c [] := by
          unfold messageOf
          rw [List.any_cons]
          rfl
        rw [renderPattern, hmessage, hinter]
        cases hmsg : interleave env.std line.fmt tags c [] with
        | none => rfl
        | some r =>
          obtain ⟨c', msg⟩ := r
          have hnone : messageOf env line tags parts c' = some (c', []) := by
            unfold messageOf
            rw [hrest]
            rfl
          show renderPattern env line tags (segmentsOf [] parts) c' (buf ++ lit ++ msg)
            = some (c', buf ++ lit ++ expand env line msg (.place .message spec :: parts))
          rw [ih (by omega), hnone, Option.map_some, expand_cons,
            expand_noMessage env line hrest msg, List.append_nil, List.append_assoc]
          rfl
      · have hno : Part.isMessage (.place field spec) = false := by
          cases field <;> first | rfl | exact absurd rfl hm
        rw [renderPattern_field env hm]
        refine hother [] c _ hno ?_
        rw [List.append_nil]
        congr 1
        cases field <;> rfl

end

/-- `parts` are the pattern as it is read. -/
def ReadAs (pattern : List UInt8) (parts : List Part) : Prop :=
  IsPattern parts ∧ (∀ p ∈ parts, p.FlagFirst) ∧ patternText parts = pattern

theorem ReadAs.parse {pattern : List UInt8} {parts : List Part} (h : ReadAs pattern parts) :
    parseTemplate pattern = .ok (segmentsOf [] parts) := by
  obtain ⟨⟨hok, hone⟩, hfirst, htext⟩ := h
  unfold parseTemplate
  rw [← htext]
  exact parseTemplateFrom_parts hok hfirst (Nat.le_refl _) hone

theorem exists_readAs {pattern : List UInt8} {segments : List Segment}
    (h : parseTemplate pattern = .ok segments) : ∃ parts, ReadAs pattern parts := by
  obtain ⟨parts, htext, hok, hfirst, hcount⟩ := exists_partsOf h
  exact ⟨parts, ⟨hok, hcount⟩, hfirst, htext⟩

/-- Patterns. On no string does the parser cut a character. It accepts exactly the texts of
sequences of literal text, escapes and placeholders of known fields with valid specs, none on the
message or the timestamp, with at most one message. And over an accepted pattern `render_pattern`
puts down, for any line, what the parts stand for, one after the other. -/
theorem template_parse_exact (env : Env) (pattern : String) :
    (∃ r, parseSlices pattern = some r) ∧
    ((∃ segments, parseSlices pattern = some (.ok segments)) ↔
      ∃ parts, IsPattern parts ∧ patternText parts = strBytes pattern) ∧
    ∀ segments, parseSlices pattern = some (.ok segments) →
      (∃ parts, ReadAs (strBytes pattern) parts) ∧
      ∀ parts, ReadAs (strBytes pattern) parts → ∀ line tags c buf,
        renderPattern env line tags segments c buf
          = (messageOf env line tags parts c).map
              fun r => (r.1, buf ++ expand env line r.2 parts) := by
  rw [parseSlices_eq]
  refine ⟨⟨_, rfl⟩, ⟨?_, ?_⟩, ?_⟩
  · rintro ⟨segments, h⟩
    obtain ⟨parts, hparts, -, htext⟩ := exists_readAs (Option.some.inj h)
    exact ⟨parts, hparts, htext⟩
  · rintro ⟨parts, hparts, htext⟩
    obtain ⟨parts', htext', hparts', hfirst⟩ := exists_flagFirst_parts hparts
    have hread : ReadAs (strBytes pattern) parts' := ⟨hparts', hfirst, htext'.trans htext⟩
    exact ⟨_, congrArg some hread.parse⟩
  · intro segments h
    have h := Option.some.inj h
    refine ⟨exists_readAs h, fun parts hread line tags c buf => ?_⟩
    rw [hread.parse] at h
    cases h
    rw [renderPattern_parts env line tags hread.1.2]
    simp only [List.append_nil]

/-- A multi-byte literal, both escapes and a spec. -/
example :
    parseSlices "é{{{level:>5}}}" = some (.ok
      [.lit (strBytes "é"), .lit [openBrace],
        .place .level { FormatSpec.default with align := .right, width := some 5 },
        .lit [closeBrace]]) := by
  rw [parseSlices_eq]
  rfl

end Ticklog
