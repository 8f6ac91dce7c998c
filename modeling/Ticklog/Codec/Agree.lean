import Ticklog.Codec.Decode
import Ticklog.Codec.SpecParts
import Ticklog.Lib.Utf8

/-!
# The validator and the renderer agree

`validate_fmt` parses name and spec to find where a placeholder ends; `interleave` searches
for the next closing brace. Both are read here as lists of visits, one for each byte or
region a loop iteration takes (`validateVisits`, `interleaveVisits`), and the loops
themselves are counting and rendering over these lists (`validateFmt_visits`,
`interleave_visits`). On every string the validator accepts the two lists are one
(`visits_agree`), so a placeholder's region is the validated one, its spec is read whole,
and the string is cut at character boundaries only.
-/

namespace Ticklog

open Lib

/-- What a scanner makes of a position of the format string. -/
inductive Visit where
  /-- The byte stands for itself. -/
  | literal (i : Nat)
  /-- A doubled brace. -/
  | escape (i : Nat)
  /-- A placeholder, with the region between its braces. -/
  | place (start stop : Nat)
  /-- A `}` that is not doubled. -/
  | loneClose (i : Nat)
  /-- A `{` without a closing brace; the region runs to the end. -/
  | unclosed (start : Nat)
deriving DecidableEq, Repr

/-- The number of placeholders visited. -/
def places : List Visit → Nat
  | [] => 0
  | .place _ _ :: vs => places vs + 1
  | .unclosed _ :: vs => places vs + 1
  | .literal _ :: vs => places vs
  | .escape _ :: vs => places vs
  | .loneClose _ :: vs => places vs

/-! ## The visits of each scanner -/

/-- The visits of `validate_fmt`'s loop from position `i` on. -/
def validateVisitsFrom : Nat → Nat → List UInt8 → Except FmtError (List Visit)
  | _, _, [] => .ok []
  | 0, _, _ :: _ => .error .trailing
  | fuel + 1, i, c :: rest =>
    if c = openBrace then
      if at? openBrace rest then do
        let vs ← validateVisitsFrom fuel (i + 2) rest.tail
        .ok (.escape i :: vs)
      else do
        let after ← validatePlaceholder rest
        -- one past the closing brace
        let next := i + 1 + (rest.length - after.length)
        let vs ← validateVisitsFrom fuel next after
        .ok (.place (i + 1) (next - 1) :: vs)
    else if c = closeBrace then
      if at? closeBrace rest then do
        let vs ← validateVisitsFrom fuel (i + 2) rest.tail
        .ok (.escape i :: vs)
      else .error .unmatchedClose
    else do
      let vs ← validateVisitsFrom fuel (i + 1) rest
      .ok (.literal i :: vs)

def validateVisits (fmt : List UInt8) : Except FmtError (List Visit) :=
  validateVisitsFrom fmt.length 0 fmt

/-- The visits of `interleave`'s loop from position `i` on. -/
def interleaveVisitsFrom : Nat → Nat → List UInt8 → List Visit
  | _, _, [] => []
  | 0, _, _ :: _ => []
  | fuel + 1, i, b :: rest =>
    if b = openBrace then
      if at? openBrace rest then .escape i :: interleaveVisitsFrom fuel (i + 2) rest.tail
      else
        let start := i + 1
        let j := start + (rest.takeWhile (· != closeBrace)).length
        match rest.dropWhile (· != closeBrace) with
        | [] => [.unclosed start]
        | _ :: after => .place start j :: interleaveVisitsFrom fuel (j + 1) after
    else if b = closeBrace then
      if at? closeBrace rest then .escape i :: interleaveVisitsFrom fuel (i + 2) rest.tail
      else .loneClose i :: interleaveVisitsFrom fuel (i + 2) (rest.drop 1)
    else .literal i :: interleaveVisitsFrom fuel (i + 1) rest

def interleaveVisits (fmt : List UInt8) : List Visit := interleaveVisitsFrom fmt.length 0 fmt

/-- `&fmt[start..stop]`. -/
def substr (fmt : List UInt8) (start stop : Nat) : List UInt8 :=
  (fmt.drop start).take (stop - start)

theorem substr_append (pre content rest : List UInt8) :
    substr (pre ++ (content ++ rest)) pre.length (pre.length + content.length) = content := by
  unfold substr
  rw [List.drop_left, Nat.add_sub_cancel_left, List.take_left]

/-! ## The validator counts its visits -/

theorem validateFrom_visits (fuel i : Nat) (rest : List UInt8) (count : Nat) :
    validateFrom fuel rest count
      = (validateVisitsFrom fuel i rest).map fun vs => count + places vs := by
  induction fuel generalizing i rest count with
  | zero =>
    cases rest with
    | nil => rfl
    | cons c rest => rfl
  | succ fuel ih =>
    cases rest with
    | nil => rfl
    | cons c rest =>
      rw [validateFrom, validateVisitsFrom]
      split
      next =>
        split
        next =>
          rw [ih (i + 2)]
          cases validateVisitsFrom fuel (i + 2) rest.tail <;> rfl
        next =>
          cases validatePlaceholder rest with
          | error e => rfl
          | ok after =>
            show validateFrom fuel after (count + 1) = _
            rw [ih (i + 1 + (rest.length - after.length))]
            cases hvs : validateVisitsFrom fuel (i + 1 + (rest.length - after.length)) after with
            | error e => simp [bind, Except.bind, Except.map, hvs]
            | ok vs =>
              simp only [bind, Except.bind, Except.map, hvs, places]
              rw [Nat.add_assoc, Nat.add_comm 1]
      next =>
        split
        next =>
          split
          next =>
            rw [ih (i + 2)]
            cases validateVisitsFrom fuel (i + 2) rest.tail <;> rfl
          next => rfl
        next =>
          rw [ih (i + 1)]
          cases validateVisitsFrom fuel (i + 1) rest <;> rfl

/-- `validate_fmt` counts the placeholders among its visits. -/
theorem validateFmt_visits (fmt : List UInt8) :
    validateFmt fmt = (validateVisits fmt).map places := by
  unfold validateFmt validateVisits
  rw [validateFrom_visits fmt.length 0 fmt 0]
  simp

/-! ## The renderer walks its visits -/

section

variable (std : Std) (fmt tags : List UInt8)

/-- What `interleave` does for a placeholder: the `parse_ok` flag, the cursor and the text
afterwards. -/
def renderArg (spec : FormatSpec) (argIdx : Nat) (parseOk : Bool) (c : Cursor) :
    Option (Bool × Cursor × List UInt8) :=
  match tags[argIdx]? with
  | some tag =>
    if parseOk then
      (formatArg std tag.toNat spec c).map fun r =>
        (r.1, r.2.1, if r.1 then r.2.2 else unknownTag tag.toNat)
    else some (parseOk, c, unknownTag tag.toNat)
  | none => some (parseOk, c, strBytes "<missing arg>")

/-- `interleave` along given visits. -/
def renderVisits :
    List Visit → Nat → Bool → Cursor → List UInt8 → Option (Cursor × List UInt8)
  | [], _, _, c, buf => some (c, buf)
  | .literal i :: vs, argIdx, parseOk, c, buf =>
    renderVisits vs argIdx parseOk c (buf ++ substr fmt i (i + 1))
  | .escape i :: vs, argIdx, parseOk, c, buf =>
    renderVisits vs argIdx parseOk c (buf ++ substr fmt i (i + 1))
  | .loneClose i :: vs, argIdx, parseOk, c, buf =>
    renderVisits vs argIdx parseOk c (buf ++ substr fmt i (i + 1))
  | .place start stop :: vs, argIdx, parseOk, c, buf =>
    (renderArg std tags (parseSpec (substr fmt start stop)) argIdx parseOk c).bind fun r =>
      renderVisits vs (argIdx + 1) r.1 r.2.1 (buf ++ r.2.2)
  | .unclosed start :: vs, argIdx, parseOk, c, buf =>
    (renderArg std tags (parseSpec (substr fmt start fmt.length)) argIdx parseOk c).bind fun r =>
      renderVisits vs (argIdx + 1) r.1 r.2.1 (buf ++ r.2.2)

variable {std tags}

/-- One iteration at a placeholder. -/
theorem interleaveFrom_place {fuel : Nat} {rest : List UInt8} (hat : at? openBrace rest = false)
    (argIdx : Nat) (parseOk : Bool) (c : Cursor) (buf : List UInt8) :
    interleaveFrom std tags (fuel + 1) (openBrace :: rest) argIdx parseOk c buf
      = (renderArg std tags (parseSpec (rest.takeWhile (· != closeBrace))) argIdx parseOk c).bind
          fun r => interleaveFrom std tags fuel (rest.dropWhile (· != closeBrace)).tail
            (argIdx + 1) r.1 r.2.1 (buf ++ r.2.2) := by
  rw [interleaveFrom, if_pos rfl, hat, if_neg (by simp)]
  unfold renderArg
  cases htag : tags[argIdx]? with
  | none => rfl
  | some tag =>
    cases parseOk with
    | false => rfl
    | true =>
      simp only [if_true]
      cases formatArg std tag.toNat (parseSpec (rest.takeWhile (· != closeBrace))) c with
      | none => rfl
      | some r =>
        obtain ⟨known, c', text⟩ := r
        cases known <;> rfl

theorem substr_head (pre : List UInt8) (b : UInt8) (rest : List UInt8) :
    substr (pre ++ b :: rest) pre.length (pre.length + 1) = [b] :=
  substr_append pre [b] rest

/-- The walk from a position on, at fuel for the rest of the string. -/
theorem interleaveFrom_visits {fuel i : Nat} {pre rest : List UInt8} (hfmt : fmt = pre ++ rest)
    (hi : pre.length = i) (hfuel : rest.length ≤ fuel) (argIdx : Nat) (parseOk : Bool)
    (c : Cursor) (buf : List UInt8) :
    interleaveFrom std tags fuel rest argIdx parseOk c buf
      = renderVisits std fmt tags (interleaveVisitsFrom fuel i rest) argIdx parseOk c buf := by
  induction fuel generalizing i pre rest argIdx parseOk c buf with
  | zero =>
    have hnil : rest = [] := List.length_eq_zero_iff.mp (Nat.le_zero.mp hfuel)
    subst hnil
    rfl
  | succ fuel ih =>
    cases rest with
    | nil => rfl
    | cons b rest =>
      rw [List.length_cons] at hfuel
      have hhead : substr fmt i (i + 1) = [b] := by
        rw [hfmt, ← hi]
        exact substr_head pre b rest
      by_cases hopen : b = openBrace
      · subst hopen
        by_cases hat : at? openBrace rest = true
        · obtain ⟨tail, rfl⟩ := at?_iff.mp hat
          rw [List.length_cons] at hfuel
          have hnext : fmt = (pre ++ [openBrace, openBrace]) ++ tail := by simp [hfmt]
          rw [interleaveFrom, interleaveVisitsFrom, if_pos rfl, if_pos rfl, if_pos hat,
            if_pos hat, renderVisits, hhead]
          exact ih hnext (by simp [hi]) (by omega) argIdx parseOk c _
        · have hat : at? openBrace rest = false := by simpa using hat
          rw [interleaveFrom_place hat, interleaveVisitsFrom, if_pos rfl, hat,
            if_neg (by simp)]
          have hsplit := List.takeWhile_append_dropWhile (p := (· != closeBrace)) (l := rest)
          generalize htake : rest.takeWhile (· != closeBrace) = content at hsplit ⊢
          have hstart : i + 1 = (pre ++ [openBrace]).length := by simp [hi]
          cases hdrop : rest.dropWhile (· != closeBrace) with
          | nil =>
            -- no closing brace: the placeholder runs to the end of the string
            rw [hdrop] at hsplit
            have hcut : fmt = (pre ++ [openBrace]) ++ (content ++ []) := by
              rw [hsplit, hfmt]
              simp
            have hend : fmt.length = (pre ++ [openBrace]).length + content.length := by
              rw [hcut]
              simp only [List.length_append, List.length_nil]
              omega
            have hregion : substr fmt (i + 1) fmt.length = content := by
              rw [hend, hstart, hcut]
              exact substr_append _ _ _
            simp only [renderVisits, hregion]
            cases fuel <;> rfl
          | cons d after =>
            rw [hdrop] at hsplit
            have hcut : fmt = (pre ++ [openBrace]) ++ (content ++ d :: after) := by
              rw [hsplit, hfmt]
              simp
            have hregion : substr fmt (i + 1) (i + 1 + content.length) = content := by
              rw [hstart, hcut]
              exact substr_append _ _ _
            have hnext : fmt = (pre ++ openBrace :: content ++ [d]) ++ after := by
              rw [hcut]
              simp
            have hlen : content.length + (after.length + 1) = rest.length := by
              rw [← hsplit, List.length_append, List.length_cons]
            have hpos : (pre ++ openBrace :: content ++ [d]).length
                = i + 1 + content.length + 1 := by
              simp only [List.length_append, List.length_cons, List.length_nil]
              omega
            simp only [renderVisits, hregion, List.tail_cons]
            congr 1
            funext r
            exact ih hnext hpos (by omega) (argIdx + 1) r.1 r.2.1 _
      · by_cases hclose : b = closeBrace
        · subst hclose
          rw [interleaveFrom, interleaveVisitsFrom, if_neg hopen, if_neg hopen, if_pos rfl,
            if_pos rfl]
          by_cases hat : at? closeBrace rest = true
          · obtain ⟨tail, rfl⟩ := at?_iff.mp hat
            rw [List.length_cons] at hfuel
            have hnext : fmt = (pre ++ [closeBrace, closeBrace]) ++ tail := by simp [hfmt]
            rw [if_pos hat, renderVisits, hhead]
            exact ih hnext (by simp [hi]) (by omega) argIdx parseOk c _
          · rw [if_neg hat, renderVisits, hhead]
            cases rest with
            | nil => cases fuel <;> rfl
            | cons d tail =>
              rw [List.length_cons] at hfuel
              have hnext : fmt = (pre ++ [closeBrace, d]) ++ tail := by simp [hfmt]
              exact ih hnext (by simp [hi]) (by omega) argIdx parseOk c _
        · have hnext : fmt = (pre ++ [b]) ++ rest := by simp [hfmt]
          rw [interleaveFrom, interleaveVisitsFrom, if_neg hopen, if_neg hopen, if_neg hclose,
            if_neg hclose, renderVisits, hhead]
          exact ih hnext (by simp [hi]) (by omega) argIdx parseOk c _

/-- `interleave` renders along its visits. -/
theorem interleave_visits (c : Cursor) (buf : List UInt8) :
    interleave std fmt tags c buf
      = renderVisits std fmt tags (interleaveVisits fmt) 0 true c buf :=
  interleaveFrom_visits fmt (List.nil_append fmt).symm rfl (Nat.le_refl _) 0 true c buf

end

/-! ## One list of visits -/

/-- What the validator found out about a visit of `fmt`. -/
inductive Visited (fmt : List UInt8) : Visit → Prop where
  | literal {pre rest : List UInt8} {c : UInt8} :
      fmt = pre ++ c :: rest → c ≠ openBrace → c ≠ closeBrace →
      Visited fmt (.literal pre.length)
  | escape {pre rest : List UInt8} {c : UInt8} :
      fmt = pre ++ c :: c :: rest → c = openBrace ∨ c = closeBrace →
      Visited fmt (.escape pre.length)
  | place {pre content rest : List UInt8} :
      fmt = pre ++ openBrace :: (content ++ closeBrace :: rest) → closeBrace ∉ content →
      validatePlaceholder (content ++ closeBrace :: rest) = .ok rest →
      Visited fmt (.place (pre.length + 1) (pre.length + 1 + content.length))

theorem validateVisitsFrom_agree {fuel i : Nat} {pre rest : List UInt8} {vs : List Visit}
    (hi : pre.length = i) (h : validateVisitsFrom fuel i rest = .ok vs) :
    interleaveVisitsFrom fuel i rest = vs ∧ ∀ v ∈ vs, Visited (pre ++ rest) v := by
  induction fuel generalizing i pre rest vs with
  | zero =>
    cases rest with
    | nil =>
      cases h
      exact ⟨rfl, by simp⟩
    | cons c rest => cases h
  | succ fuel ih =>
    cases rest with
    | nil =>
      cases h
      exact ⟨rfl, by simp⟩
    | cons c rest =>
      rw [validateVisitsFrom] at h
      by_cases hopen : c = openBrace
      · subst hopen
        rw [if_pos rfl] at h
        by_cases hat : at? openBrace rest = true
        · obtain ⟨tail, rfl⟩ := at?_iff.mp hat
          rw [if_pos hat] at h
          obtain ⟨vs', hvs, heq⟩ := bind_ok h
          cases heq
          have hpos : (pre ++ [openBrace, openBrace]).length = i + 2 := by simp [hi]
          obtain ⟨hsame, hall⟩ := ih hpos hvs
          refine ⟨?_, ?_⟩
          · rw [interleaveVisitsFrom, if_pos rfl, if_pos hat, hsame]
          · intro v hv
            rcases List.mem_cons.mp hv with rfl | hv
            · rw [← hi]
              exact .escape rfl (Or.inl rfl)
            · simpa using hall v hv
        · rw [if_neg hat] at h
          obtain ⟨after, hplace, h⟩ := bind_ok h
          obtain ⟨vs', hvs, heq⟩ := bind_ok h
          cases heq
          obtain ⟨content, rfl, hcontent⟩ := validatePlaceholder_reads hplace
          -- the validator's end of the region is the first closing brace
          have hlen : (content ++ closeBrace :: after).length - after.length
              = content.length + 1 := by
            rw [List.length_append, List.length_cons]
            omega
          have hnext : i + 1 + ((content ++ closeBrace :: after).length - after.length)
              = i + 1 + content.length + 1 := by
            rw [hlen]
            omega
          rw [hnext] at hvs ⊢
          rw [Nat.add_sub_cancel]
          have hpos : (pre ++ openBrace :: (content ++ [closeBrace])).length
              = i + 1 + content.length + 1 := by
            simp only [List.length_append, List.length_cons, List.length_nil]
            omega
          obtain ⟨hsame, hall⟩ := ih hpos hvs
          obtain ⟨htake, -⟩ := takeWhile_content hcontent after
          have hdrop : (content ++ closeBrace :: after).dropWhile (· != closeBrace)
              = closeBrace :: after := by
            have hsplit := List.takeWhile_append_dropWhile (p := (· != closeBrace))
              (l := content ++ closeBrace :: after)
            rw [htake] at hsplit
            exact List.append_cancel_left hsplit
          refine ⟨?_, ?_⟩
          · rw [interleaveVisitsFrom, if_pos rfl, if_neg hat, hdrop, htake]
            exact congrArg _ hsame
          · intro v hv
            rcases List.mem_cons.mp hv with rfl | hv
            · rw [← hi]
              exact .place rfl hcontent hplace
            · simpa using hall v hv
      · rw [if_neg hopen] at h
        by_cases hclose : c = closeBrace
        · subst hclose
          rw [if_pos rfl] at h
          by_cases hat : at? closeBrace rest = true
          · obtain ⟨tail, rfl⟩ := at?_iff.mp hat
            rw [if_pos hat] at h
            obtain ⟨vs', hvs, heq⟩ := bind_ok h
            cases heq
            have hpos : (pre ++ [closeBrace, closeBrace]).length = i + 2 := by simp [hi]
            obtain ⟨hsame, hall⟩ := ih hpos hvs
            refine ⟨?_, ?_⟩
            · rw [interleaveVisitsFrom, if_neg hopen, if_pos rfl, if_pos hat, hsame]
            · intro v hv
              rcases List.mem_cons.mp hv with rfl | hv
              · rw [← hi]
                exact .escape rfl (Or.inr rfl)
              · simpa using hall v hv
          · rw [if_neg hat] at h
            cases h
        · rw [if_neg hclose] at h
          obtain ⟨vs', hvs, heq⟩ := bind_ok h
          cases heq
          have hpos : (pre ++ [c]).length = i + 1 := by simp [hi]
          obtain ⟨hsame, hall⟩ := ih hpos hvs
          refine ⟨?_, ?_⟩
          · rw [interleaveVisitsFrom, if_neg hopen, if_neg hclose, hsame]
          · intro v hv
            rcases List.mem_cons.mp hv with rfl | hv
            · rw [← hi]
              exact .literal rfl hopen hclose
            · simpa using hall v hv

/-- What the validator accepts, the renderer visits in the same way. -/
theorem visits_agree {fmt : List UInt8} {vs : List Visit} (h : validateVisits fmt = .ok vs) :
    interleaveVisits fmt = vs ∧ ∀ v ∈ vs, Visited fmt v := by
  have hstart : ([] : List UInt8).length = 0 := rfl
  exact validateVisitsFrom_agree hstart h

/-! ## A placeholder's region -/

/-- `str::is_char_boundary`. -/
def IsCharBoundary (s : String) (i : Nat) : Prop := String.Pos.Raw.IsValid s ⟨i⟩

/-- How `parse_spec` takes a placeholder's content: up to the first `:` a name, whose end is a
character boundary of the whole string too, and behind it a spec that is read to its end. -/
inductive WholeContent (s : String) (start : Nat) (content : List UInt8) : Prop where
  | name : colon ∉ content → parseSpec content = FormatSpec.default →
      WholeContent s start content
  | spec (name : List UInt8) (p : SpecParts) : content = name ++ colon :: p.text →
      colon ∉ name → IsCharBoundary s (start + name.length) → parseSpec content = p.spec →
      WholeContent s start content

theorem boundary_after {s : String} {pre rest : List UInt8} {b : UInt8} (hb : b < 0x80)
    (hs : strBytes s = pre ++ b :: rest) :
    IsCharBoundary s pre.length ∧ IsCharBoundary s (pre.length + 1) := by
  have hvalid : Utf8 (pre ++ b :: rest) := hs ▸ utf8_toByteArray s
  obtain ⟨hpre, hrest⟩ := Utf8.cut hb hvalid
  constructor
  · exact isValid_of_utf8 hs hpre ((Utf8.byte hb).append hrest)
  · have hcut : strBytes s = (pre ++ [b]) ++ rest := by rw [hs]; simp
    have := isValid_of_utf8 hcut (hpre.append (Utf8.byte hb)) hrest
    simpa [IsCharBoundary] using this

/-- The content of an accepted placeholder: a name, or a name and an accepted spec, which is what
`parse_spec` reads. -/
theorem validatePlaceholder_cut {content rest : List UInt8} (hcontent : closeBrace ∉ content)
    (h : validatePlaceholder (content ++ closeBrace :: rest) = .ok rest) :
    (colon ∉ content ∧ parseSpec content = FormatSpec.default) ∨
      ∃ name body : List UInt8, content = name ++ colon :: body ∧ colon ∉ name ∧
        closeBrace ∉ body ∧
        parseSpecConst (body ++ closeBrace :: rest) = .ok (closeBrace :: rest) ∧
        parseSpec content = parseSpecBody body := by
  by_cases hcolon : colon ∈ content
  · right
    obtain ⟨name, body, rfl, hname⟩ := List.eq_append_cons_of_mem hcolon
    have hbody : closeBrace ∉ body := fun hm =>
      hcontent (List.mem_append_right _ (List.mem_cons_of_mem _ hm))
    have hnameClose : closeBrace ∉ name := fun hm => hcontent (List.mem_append_left _ hm)
    have hdrop : (name ++ colon :: body ++ closeBrace :: rest).dropWhile
        (fun c => c != colon && c != closeBrace) = colon :: (body ++ closeBrace :: rest) := by
      have hpos : ∀ c ∈ name, (c != colon && c != closeBrace) = true := by
        intro c hc
        rw [Bool.and_eq_true, bne_iff_ne, bne_iff_ne]
        exact ⟨fun heq => hname (heq ▸ hc), fun heq => hnameClose (heq ▸ hc)⟩
      rw [List.append_assoc, List.dropWhile_append_of_pos hpos]
      exact List.dropWhile_cons_of_neg (by decide)
    unfold validatePlaceholder at h
    simp only [hdrop] at h
    split at h
    next => cases h
    next =>
      obtain ⟨r, hspec, hclose⟩ := bind_ok h
      rw [validateSpec, if_pos rfl] at hspec
      have hr : r = closeBrace :: rest := by
        unfold expectClose at hclose
        split at hclose
        next => cases hclose
        next c tail =>
          split at hclose
          next hc =>
            cases hclose
            rw [hc]
          next => cases hclose
      subst hr
      refine ⟨name, body, rfl, hname, hbody, hspec, ?_⟩
      have hfind : (name ++ colon :: body).dropWhile (· != colon) = colon :: body := by
        have hpos : ∀ c ∈ name, (c != colon) = true := by
          intro c hc
          exact bne_iff_ne.mpr fun heq => hname (heq ▸ hc)
        rw [List.dropWhile_append_of_pos hpos]
        exact List.dropWhile_cons_of_neg (by decide)
      rw [parseSpec, hfind]
  · left
    refine ⟨hcolon, ?_⟩
    have hdrop : content.dropWhile (· != colon) = [] := by
      rw [List.dropWhile_eq_nil_iff]
      intro c hc
      exact bne_iff_ne.mpr fun heq => hcolon (heq ▸ hc)
    rw [parseSpec, hdrop]

/-- As above, the spec in its parts. -/
theorem validatePlaceholder_content {content rest : List UInt8} (hcontent : closeBrace ∉ content)
    (h : validatePlaceholder (content ++ closeBrace :: rest) = .ok rest) :
    (colon ∉ content ∧ parseSpec content = FormatSpec.default) ∨
      ∃ (name : List UInt8) (p : SpecParts), content = name ++ colon :: p.text ∧
        colon ∉ name ∧ parseSpec content = p.spec := by
  refine (validatePlaceholder_cut hcontent h).imp id ?_
  rintro ⟨name, body, hcut, hname, hbody, hspec, hread⟩
  obtain ⟨p, hp⟩ := parseSpecConst_parts hbody hspec
  refine ⟨name, p, by rw [hcut, hp], hname, ?_⟩
  rw [hread, hp]
  exact p.parseSpecBody_text

/-- A placeholder the validator accepted, as the renderer slices and reads it. -/
theorem place_whole {s : String} {start stop : Nat}
    (h : Visited (strBytes s) (.place start stop)) :
    IsCharBoundary s start ∧ IsCharBoundary s stop ∧
      WholeContent s start (substr (strBytes s) start stop) := by
  generalize hv : Visit.place start stop = v at h
  cases h with
  | literal => cases hv
  | escape => cases hv
  | @place pre content rest hs hcontent hplace =>
    cases hv
    have hbytes : strBytes s = (pre ++ [openBrace]) ++ (content ++ closeBrace :: rest) := by
      rw [hs]
      simp
    have hlen : (pre ++ [openBrace]).length = pre.length + 1 := by simp
    have hregion : substr (strBytes s) (pre.length + 1) (pre.length + 1 + content.length)
        = content := by
      rw [hbytes, ← hlen]
      exact substr_append _ _ _
    refine ⟨(boundary_after (by decide) hs).2, ?_, ?_⟩
    · have hclose : strBytes s = (pre ++ openBrace :: content) ++ closeBrace :: rest := by
        rw [hs]
        simp
      have := (boundary_after (by decide) hclose).1
      rwa [List.length_append, List.length_cons, Nat.add_comm content.length 1,
        ← Nat.add_assoc] at this
    · rw [hregion]
      rcases validatePlaceholder_content hcontent hplace with
        ⟨hno, hspec⟩ | ⟨name, p, hp, hno, hspec⟩
      · exact .name hno hspec
      · refine .spec name p hp hno ?_ hspec
        have hcolon : strBytes s
            = (pre ++ openBrace :: name) ++ colon :: (p.text ++ closeBrace :: rest) := by
          rw [hs, hp]
          simp
        have := (boundary_after (by decide) hcolon).1
        rwa [List.length_append, List.length_cons, Nat.add_comm name.length 1,
          ← Nat.add_assoc] at this

/-- The validator and the renderer agree on every string the validator accepts. Both make the
same visits, as many of them placeholders as the validator counts, and rendering is walking
them. No visit is a lone or an unclosed brace. Each placeholder is sliced at character
boundaries, and `parse_spec` reads the region the validator accepted to its end. -/
theorem scanners_agree {s : String} {n : Nat} (h : validateFmt (strBytes s) = .ok n) :
    ∃ vs : List Visit,
      validateVisits (strBytes s) = .ok vs ∧ interleaveVisits (strBytes s) = vs ∧
      places vs = n ∧
      (∀ (std : Std) (tags : List UInt8) (c : Cursor) (buf : List UInt8),
        interleave std (strBytes s) tags c buf
          = renderVisits std (strBytes s) tags vs 0 true c buf) ∧
      (∀ i, .loneClose i ∉ vs) ∧ (∀ start, .unclosed start ∉ vs) ∧
      ∀ start stop, .place start stop ∈ vs →
        IsCharBoundary s start ∧ IsCharBoundary s stop ∧
          WholeContent s start (substr (strBytes s) start stop) := by
  rw [validateFmt_visits] at h
  cases hvs : validateVisits (strBytes s) with
  | error e =>
    rw [hvs] at h
    cases h
  | ok vs =>
    rw [hvs] at h
    obtain ⟨hsame, hall⟩ := visits_agree hvs
    refine ⟨vs, rfl, hsame, Except.ok.inj h, fun std tags c buf => ?_, fun i hi => ?_,
      fun start hi => ?_, fun start stop hi => place_whole (hall _ hi)⟩
    · rw [interleave_visits, hsame]
    · exact nomatch hall _ hi
    · exact nomatch hall _ hi

/-- A multi-byte name, the fill `:`, and escapes on both sides of the placeholder. -/
def oddFill : String := "\x7b\x7bé\x7bñ::<5\x7d\x7d\x7d"

theorem scanners_agree_oddFill :
    ∃ vs : List Visit, interleaveVisits (strBytes oddFill) = vs ∧ places vs = 1 := by
  have haccepted : validateFmt (strBytes oddFill) = .ok 1 := by decide
  obtain ⟨vs, -, hvs, hn, -⟩ := scanners_agree haccepted
  exact ⟨vs, hvs, hn⟩

end Ticklog
