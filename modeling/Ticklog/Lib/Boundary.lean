import Ticklog.Lib.Utf8

/-!
# Character boundaries

The bytes `0x80` to `0xBF` continue a character of UTF-8 and start none. A valid text may be
cut in front of any other byte (`Utf8.cut_at`), and among four bytes in a row one starts a
character (`Utf8.starts_within`).
-/

namespace Ticklog.Lib

/-- The byte continues a character. -/
def Continues (b : UInt8) : Prop := 0x80 ≤ b ∧ b < 0xC0

instance (b : UInt8) : Decidable (Continues b) := inferInstanceAs (Decidable (_ ∧ _))

/-- The tag of a continuing byte over six bits. -/
theorem continues_tagged (x : UInt8) : Continues ((x &&& 0x3f) ||| 0x80) := by
  refine ⟨high_or _ _ (by decide), ?_⟩
  rw [UInt8.lt_iff_toNat_lt, UInt8.toNat_or, UInt8.toNat_and, Nat.or_comm]
  have hlow : x.toNat &&& 63 < 2 ^ 6 := Nat.lt_of_le_of_lt Nat.and_le_right (by omega)
  have hsum := Nat.two_pow_add_eq_or_of_lt hlow 2
  show 128 ||| (x.toNat &&& 63) < 192
  rw [show (128 : Nat) = 2 ^ 6 * 2 from rfl, ← hsum]
  omega

/-- A first byte's tag over whatever it carries. -/
theorem starts_tagged (x : UInt8) {tag : UInt8} (h : 0xC0 ≤ tag) : ¬ Continues (x ||| tag) := by
  rintro ⟨-, hlt⟩
  rw [UInt8.le_iff_toNat_le] at h
  rw [UInt8.lt_iff_toNat_lt, UInt8.toNat_or] at hlt
  have hle : tag.toNat ≤ x.toNat ||| tag.toNat := Nat.right_le_or
  exact absurd (Nat.le_trans h hle) (Nat.not_le.mpr hlt)

/-- A character starts with a byte that continues none; up to three follow that do. -/
theorem encodeChar_shape (c : Char) :
    ∃ first rest, String.utf8EncodeChar c = first :: rest ∧ ¬ Continues first ∧
      rest.length ≤ 3 ∧ ∀ b, b ∈ rest → Continues b := by
  have hsize := c.utf8Size_le_four
  have hpos := c.utf8Size_pos
  have hcases : c.utf8Size = 1 ∨ c.utf8Size = 2 ∨ c.utf8Size = 3 ∨ c.utf8Size = 4 := by omega
  rcases hcases with h | h | h | h
  · obtain ⟨b, hb, hc⟩ := ascii_of_size h
    refine ⟨b, [], hc, ?_, Nat.zero_le _, nofun⟩
    rintro ⟨hge, -⟩
    exact absurd hb (UInt8.not_lt.mpr hge)
  · refine ⟨_, _, String.utf8EncodeChar_eq_cons_cons h, starts_tagged _ (by decide), ?_, ?_⟩
    · simp
    · intro b hb
      rw [List.mem_singleton.mp hb]
      exact continues_tagged _
  · refine ⟨_, _, String.utf8EncodeChar_eq_cons_cons_cons h, starts_tagged _ (by decide), ?_, ?_⟩
    · simp
    · intro b hb
      rcases List.mem_pair.mp hb with rfl | rfl
      · exact continues_tagged _
      · exact continues_tagged _
  · refine ⟨_, _, String.utf8EncodeChar_eq_cons_cons_cons_cons h, starts_tagged _ (by decide),
      ?_, ?_⟩
    · simp
    · intro b hb
      simp only [List.mem_cons, List.not_mem_nil, or_false] at hb
      rcases hb with rfl | rfl | rfl
      · exact continues_tagged _
      · exact continues_tagged _
      · exact continues_tagged _

namespace Utf8

/-- A valid encoding may be cut in front of a byte that starts a character. -/
theorem cut_at {xs ys : List UInt8} {b : UInt8} (hb : ¬ Continues b) (h : Utf8 (xs ++ b :: ys)) :
    Utf8 xs ∧ Utf8 (b :: ys) := by
  obtain ⟨cs, hcs⟩ := h
  induction cs generalizing xs with
  | nil => simp [utf8] at hcs
  | cons c cs ih =>
    have hsplit : xs ++ b :: ys = String.utf8EncodeChar c ++ utf8 cs := hcs
    obtain ⟨first, rest, hc, hfirst, hlen, hrest⟩ := encodeChar_shape c
    cases xs with
    | nil => exact ⟨nil, ⟨c :: cs, hsplit⟩⟩
    | cons x xs =>
      rw [hc, List.cons_append, List.cons_append, List.cons.injEq] at hsplit
      obtain ⟨rfl, hsplit⟩ := hsplit
      rcases List.append_eq_append_iff.mp hsplit with ⟨zs, henc, hys⟩ | ⟨zs, hxs, hys⟩
      · cases zs with
        | nil =>
          -- the byte starts the next character
          have hxs : xs = rest := by simpa using henc.symm
          refine ⟨⟨[c], ?_⟩, ⟨cs, by simpa using hys⟩⟩
          rw [hxs, utf8, List.flatMap_singleton, hc]
        | cons z zs =>
          obtain ⟨rfl, -⟩ := List.cons.inj hys
          exact absurd (hrest b (by rw [henc]; simp)) hb
      · obtain ⟨hzs, hys⟩ := ih hys.symm
        refine ⟨?_, hys⟩
        have hfront : x :: xs = String.utf8EncodeChar c ++ zs := by rw [hc, hxs]; rfl
        rw [hfront]
        exact append ⟨[c], by rw [utf8, List.flatMap_singleton]⟩ hzs

/-- Not far in front of a place a character starts. -/
theorem starts_within {bytes : List UInt8} (h : Utf8 bytes) {n : Nat} (hn : n < bytes.length) :
    ∃ m b, m ≤ n ∧ n < m + 4 ∧ bytes[m]? = some b ∧ ¬ Continues b := by
  obtain ⟨cs, rfl⟩ := h
  induction cs generalizing n with
  | nil => simp [utf8] at hn
  | cons c cs ih =>
    obtain ⟨first, rest, hc, hfirst, hlen, hrest⟩ := encodeChar_shape c
    have hcons : utf8 (c :: cs) = first :: rest ++ utf8 cs := by
      rw [← hc]
      rfl
    rw [hcons] at hn ⊢
    by_cases hin : n < (first :: rest).length
    · refine ⟨0, first, Nat.zero_le n, ?_, rfl, hfirst⟩
      rw [List.length_cons] at hin
      omega
    · rw [List.length_append] at hn
      obtain ⟨m, b, hm, hnear, hb, hstart⟩ := ih (n := n - (first :: rest).length) (by omega)
      refine ⟨(first :: rest).length + m, b, by omega, by omega, ?_, hstart⟩
      rw [List.getElem?_append_right (by omega)]
      rw [Nat.add_sub_cancel_left]
      exact hb

end Utf8

end Ticklog.Lib
