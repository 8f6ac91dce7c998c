import Mathlib.Data.List.Basic

/-!
# A stream of items, read up to a cut

Items of one or more elements each are laid one behind the other. `wholes xs n` are the items that
lie in the first `n` elements from end to end; a cut behind them leaves the beginning of the next
item (`take_flatten`). A cut is clean (`Clean`) if nothing is left; reading on from there is
reading the items that are left (`Clean.split`).
-/

namespace Ticklog.Lib

universe u

variable {β : Type u} {xs ys : List (List β)} {x : List β} {n : Nat}

/-- The items within the first `n` elements. -/
def wholes : List (List β) → Nat → List (List β)
  | [], _ => []
  | x :: xs, n => if x.length ≤ n then x :: wholes xs (n - x.length) else []

theorem wholes_cons_pos (h : x.length ≤ n) : wholes (x :: xs) n = x :: wholes xs (n - x.length) :=
  if_pos h

theorem wholes_cons_neg (h : ¬ x.length ≤ n) : wholes (x :: xs) n = [] := if_neg h

/-- They come first in the stream. -/
theorem wholes_begins (xs : List (List β)) (n : Nat) : wholes xs n <+: xs := by
  induction xs generalizing n with
  | nil => exact List.prefix_refl _
  | cons x xs ih =>
    by_cases h : x.length ≤ n
    · rw [wholes_cons_pos h]
      exact (List.cons_prefix_cons).mpr ⟨rfl, ih _⟩
    · rw [wholes_cons_neg h]
      exact List.nil_prefix

/-- Items that fit are whole. -/
theorem wholes_append (xs ys : List (List β)) (n : Nat) :
    wholes (xs ++ ys) (xs.flatten.length + n) = xs ++ wholes ys n := by
  induction xs with
  | nil =>
    show wholes ys (0 + n) = wholes ys n
    rw [Nat.zero_add]
  | cons x xs ih =>
    rw [List.flatten_cons, List.length_append, List.cons_append, wholes_cons_pos (by omega),
      List.cons_append, ← ih]
    congr 2
    omega

/-- The first `n` elements: the whole items, then a part of the next. -/
theorem take_flatten (h : n ≤ xs.flatten.length) :
    ∃ part, xs.flatten.take n = (wholes xs n).flatten ++ part ∧
      (part = [] ∨ ∃ x ∈ xs, part <+: x ∧ part.length < x.length) := by
  induction xs generalizing n with
  | nil =>
    refine ⟨[], ?_, Or.inl rfl⟩
    rw [List.flatten_nil, List.take_nil]
    rfl
  | cons x xs ih =>
    by_cases hx : x.length ≤ n
    · rw [List.flatten_cons, List.length_append] at h
      obtain ⟨part, htake, hpart⟩ := ih (n := n - x.length) (by omega)
      refine ⟨part, ?_, ?_⟩
      · rw [wholes_cons_pos hx, List.flatten_cons, List.flatten_cons, List.take_append,
          List.take_of_length_le hx, htake, List.append_assoc]
      · rcases hpart with hnil | ⟨y, hy, hle, hlt⟩
        · exact Or.inl hnil
        · exact Or.inr ⟨y, List.mem_cons_of_mem _ hy, hle, hlt⟩
    · refine ⟨x.take n, ?_, Or.inr ⟨x, List.mem_cons_self, List.take_prefix _ _, ?_⟩⟩
      · rw [wholes_cons_neg hx, List.flatten_cons, List.take_append_of_le_length (by omega)]
        rfl
      · rw [List.length_take]
        omega

/-- An item that joins the stream behind the cut changes nothing in front of it. -/
theorem wholes_concat (hx : x ≠ []) (h : n ≤ xs.flatten.length) :
    wholes (xs ++ [x]) n = wholes xs n := by
  induction xs generalizing n with
  | nil =>
    have hn : n = 0 := Nat.le_zero.mp h
    have hpos := List.length_pos_iff.mpr hx
    exact wholes_cons_neg (by omega)
  | cons y xs ih =>
    by_cases hy : y.length ≤ n
    · rw [List.flatten_cons, List.length_append] at h
      rw [List.cons_append, wholes_cons_pos hy, wholes_cons_pos hy, ih (by omega)]
    · rw [List.cons_append, wholes_cons_neg hy, wholes_cons_neg hy]

theorem length_le_flatten (h : ∀ x ∈ xs, x ≠ []) : xs.length ≤ xs.flatten.length := by
  induction xs with
  | nil => exact Nat.le_refl _
  | cons x xs ih =>
    have hpos := List.length_pos_iff.mpr (h x List.mem_cons_self)
    have hrest := ih fun y hy => h y (List.mem_cons_of_mem _ hy)
    rw [List.length_cons, List.flatten_cons, List.length_append]
    omega

/-- The cut falls between two items. -/
def Clean (xs : List (List β)) (n : Nat) : Prop := (wholes xs n).flatten.length = n

instance (xs : List (List β)) (n : Nat) : Decidable (Clean xs n) :=
  inferInstanceAs (Decidable (_ = _))

/-- Behind a clean cut the rest of the items begins. -/
theorem Clean.split (h : Clean xs n) :
    ∃ rest, xs = wholes xs n ++ rest ∧ xs.flatten.drop n = rest.flatten ∧
      ∀ m, wholes xs (n + m) = wholes xs n ++ wholes rest m := by
  obtain ⟨rest, hrest⟩ := wholes_begins xs n
  refine ⟨rest, hrest.symm, ?_, ?_⟩
  · conv_lhs => rw [← hrest, List.flatten_append]
    exact List.drop_left' h
  · intro m
    have hadd := wholes_append (wholes xs n) rest m
    rw [hrest, h] at hadd
    exact hadd

end Ticklog.Lib
