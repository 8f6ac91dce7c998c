import Mathlib.Data.List.Basic
import Mathlib.Data.List.Flatten

/-!
# UTF-8 byte by byte

Scanners that look at a text one byte at a time rest on one fact: an ASCII byte is a
character of its own, so a valid encoding may be cut on either side of it
(`Utf8.cut`). `Utf8` is validity, stated as being the encoding of some text.
-/

namespace Ticklog.Lib

/-- The encoding of a text. -/
def utf8 (cs : List Char) : List UInt8 := cs.flatMap String.utf8EncodeChar

/-- The bytes are the encoding of a text. -/
def Utf8 (bytes : List UInt8) : Prop := ∃ cs, bytes = utf8 cs

/-! ## One character -/

theorem ascii_of_size {c : Char} (h : c.utf8Size = 1) :
    ∃ b : UInt8, b < 0x80 ∧ String.utf8EncodeChar c = [b] := by
  refine ⟨_, ?_, String.utf8EncodeChar_eq_singleton h⟩
  have hc : c.val.toNat ≤ 127 := by
    have := Char.utf8Size_eq_one_iff.mp h
    rwa [UInt32.le_iff_toNat_le] at this
  rw [UInt8.lt_iff_toNat_lt, UInt32.toNat_toUInt8]
  show c.val.toNat % 256 < 128
  omega

/-- Setting the high bit. -/
theorem high_or (x m : UInt8) (hm : 0x80 ≤ m) : 0x80 ≤ x ||| m := by
  rw [UInt8.le_iff_toNat_le] at hm ⊢
  rw [UInt8.toNat_or]
  exact Nat.le_trans hm Nat.right_le_or

/-- A character is either an ASCII byte, or has no ASCII byte in it. -/
theorem encodeChar_cases (c : Char) :
    (∃ b : UInt8, b < 0x80 ∧ String.utf8EncodeChar c = [b]) ∨
      ∀ b ∈ String.utf8EncodeChar c, 0x80 ≤ b := by
  have hsize := c.utf8Size_le_four
  have hpos := c.utf8Size_pos
  have hcases : c.utf8Size = 1 ∨ c.utf8Size = 2 ∨ c.utf8Size = 3 ∨ c.utf8Size = 4 := by omega
  have h80 : (0x80 : UInt8) ≤ 0x80 := by decide
  have hc0 : (0x80 : UInt8) ≤ 0xc0 := by decide
  have he0 : (0x80 : UInt8) ≤ 0xe0 := by decide
  have hf0 : (0x80 : UInt8) ≤ 0xf0 := by decide
  rcases hcases with h | h | h | h
  · exact Or.inl (ascii_of_size h)
  · right
    rw [String.utf8EncodeChar_eq_cons_cons h]
    intro b hb
    rcases List.mem_pair.mp hb with rfl | rfl
    · exact high_or _ _ hc0
    · exact high_or _ _ h80
  · right
    rw [String.utf8EncodeChar_eq_cons_cons_cons h]
    intro b hb
    simp only [List.mem_cons, List.not_mem_nil, or_false] at hb
    rcases hb with rfl | rfl | rfl
    · exact high_or _ _ he0
    · exact high_or _ _ h80
    · exact high_or _ _ h80
  · right
    rw [String.utf8EncodeChar_eq_cons_cons_cons_cons h]
    intro b hb
    simp only [List.mem_cons, List.not_mem_nil, or_false] at hb
    rcases hb with rfl | rfl | rfl | rfl
    · exact high_or _ _ hf0
    · exact high_or _ _ h80
    · exact high_or _ _ h80
    · exact high_or _ _ h80

/-- The character of an ASCII byte. -/
theorem encodeChar_ascii {b : UInt8} (h : b < 0x80) :
    String.utf8EncodeChar (Char.ofNat b.toNat) = [b] := by
  have hb : b.toNat < 128 := UInt8.lt_iff_toNat_lt.mp h
  have hvalid : b.toNat.isValidChar := Or.inl (by omega)
  have hval : (Char.ofNat b.toNat).val.toNat = b.toNat := by
    rw [Char.ofNat, dif_pos hvalid]
    rfl
  have hsize : (Char.ofNat b.toNat).utf8Size = 1 := by
    rw [Char.utf8Size_eq_one_iff, UInt32.le_iff_toNat_le, hval]
    show b.toNat ≤ 127
    omega
  rw [String.utf8EncodeChar_eq_singleton hsize]
  congr 1
  apply UInt8.toNat_inj.mp
  rw [UInt32.toNat_toUInt8, hval]
  omega

namespace Utf8

theorem nil : Utf8 [] := ⟨[], rfl⟩

theorem append {xs ys : List UInt8} (hx : Utf8 xs) (hy : Utf8 ys) : Utf8 (xs ++ ys) := by
  obtain ⟨cs, rfl⟩ := hx
  obtain ⟨ds, rfl⟩ := hy
  exact ⟨cs ++ ds, (List.flatMap_append).symm⟩

theorem byte {b : UInt8} (h : b < 0x80) : Utf8 [b] :=
  ⟨[Char.ofNat b.toNat], by rw [utf8, List.flatMap_singleton, encodeChar_ascii h]⟩

/-- ASCII is UTF-8. -/
theorem ascii {xs : List UInt8} (h : ∀ b ∈ xs, b < 0x80) : Utf8 xs := by
  induction xs with
  | nil => exact nil
  | cons b xs ih =>
    exact (byte (h b List.mem_cons_self)).append
      (ih fun d hd => h d (List.mem_cons_of_mem _ hd))

/-- A valid encoding may be cut on either side of an ASCII byte. -/
theorem cut {xs ys : List UInt8} {b : UInt8} (hb : b < 0x80) (h : Utf8 (xs ++ b :: ys)) :
    Utf8 xs ∧ Utf8 ys := by
  obtain ⟨cs, hcs⟩ := h
  induction cs generalizing xs with
  | nil => simp [utf8] at hcs
  | cons c cs ih =>
    have hsplit : xs ++ b :: ys = String.utf8EncodeChar c ++ utf8 cs := hcs
    rcases List.append_eq_append_iff.mp hsplit with ⟨zs, henc, hrest⟩ | ⟨zs, hxs, hrest⟩
    · -- the byte is in this character, or starts the next
      cases zs with
      | nil =>
        have hxs : xs = String.utf8EncodeChar c := by simpa using henc.symm
        have hnil : ([] : List UInt8) ++ b :: ys = utf8 cs := by simpa using hrest
        exact ⟨⟨[c], by rw [hxs, utf8, List.flatMap_singleton]⟩, (ih hnil).2⟩
      | cons d zs =>
        obtain ⟨rfl, hys⟩ := List.cons.inj hrest
        rcases encodeChar_cases c with ⟨d, -, hc⟩ | hhigh
        · rw [hc] at henc
          cases xs with
          | nil =>
            have hzs : zs = [] := (List.cons.inj henc).2.symm
            subst hzs
            exact ⟨nil, ⟨cs, hys⟩⟩
          | cons x xs => simp at henc
        · have hge := hhigh b (by rw [henc]; simp)
          exact absurd hb (UInt8.not_lt.mpr hge)
    · obtain ⟨hzs, hys⟩ := ih hrest.symm
      refine ⟨?_, hys⟩
      rw [hxs]
      exact append ⟨[c], by rw [utf8, List.flatMap_singleton]⟩ hzs

theorem tail {b : UInt8} {xs : List UInt8} (hb : b < 0x80) (h : Utf8 (b :: xs)) : Utf8 xs := by
  have hcut : Utf8 ([] ++ b :: xs) := h
  exact (cut hb hcut).2

/-- Scanning up to an ASCII byte cuts the text there. -/
theorem span {p : UInt8 → Bool} (hp : ∀ b, p b = false → b < 0x80) {xs ys : List UInt8} {b : UInt8}
    (h : Utf8 xs) (hdrop : xs.dropWhile p = b :: ys) :
    p b = false ∧ Utf8 (xs.takeWhile p) ∧ Utf8 ys := by
  have hsplit := List.takeWhile_append_dropWhile (p := p) (l := xs)
  have hb : p b = false := by
    have := List.head?_dropWhile_not p xs
    rw [hdrop] at this
    simpa using this
  rw [hdrop] at hsplit
  rw [← hsplit] at h
  exact ⟨hb, cut (hp b hb) h⟩

/-- A character of one byte is ASCII. -/
theorem of_byte {b : UInt8} (h : Utf8 [b]) : b < 0x80 := by
  obtain ⟨cs, hcs⟩ := h
  cases cs with
  | nil => simp [utf8] at hcs
  | cons c cs =>
    have hsplit : [b] = String.utf8EncodeChar c ++ utf8 cs := hcs
    have hlen : 1 = c.utf8Size + (utf8 cs).length := by
      have := congrArg List.length hsplit
      simpa using this
    have hpos := c.utf8Size_pos
    obtain ⟨d, hd, hc⟩ := ascii_of_size (c := c) (by omega)
    rw [hc] at hsplit
    rw [(List.cons.inj hsplit).1]
    exact hd

end Utf8

/-! ## Strings -/

/-- A string is stored as valid UTF-8. -/
theorem utf8_toByteArray (s : String) : Utf8 s.toByteArray.data.toList := by
  obtain ⟨cs, rfl⟩ := s.exists_eq_ofList
  refine ⟨cs, ?_⟩
  rw [String.toByteArray_ofList, List.utf8Encode]
  simp [utf8]

/-- A string may be sliced where the bytes before are valid on their own. -/
theorem isValid_of_utf8 {s : String} {xs ys : List UInt8}
    (hs : s.toByteArray.data.toList = xs ++ ys) (hx : Utf8 xs) (hy : Utf8 ys) :
    String.Pos.Raw.IsValid s ⟨xs.length⟩ := by
  obtain ⟨cs, rfl⟩ := hx
  obtain ⟨ds, rfl⟩ := hy
  rw [String.Pos.Raw.isValid_iff_exists_append]
  refine ⟨String.ofList cs, String.ofList ds, ?_, ?_⟩
  · apply String.toByteArray_inj.mp
    apply ByteArray.ext
    apply Array.toList_inj.mp
    rw [hs]
    simp [utf8, List.utf8Encode]
  · apply String.Pos.Raw.ext
    show (utf8 cs).length = (String.ofList cs).utf8ByteSize
    rw [← String.size_toByteArray, String.toByteArray_ofList, List.utf8Encode]
    simp [utf8]

end Ticklog.Lib
