import Mathlib.Algebra.BigOperators.Group.Finset.Basic
import Mathlib.Data.List.Nodup

/-!
# Lists and sums, counted by class

Facts about lists that the developments above share: a list told apart by a key, and
the count of an element in a concatenation that has it in one place only. Last, a budget
shared by many holders of whom one moves at a time.
-/

namespace Ticklog.Lib

variable {α : Type*} {ι : Type*} [DecidableEq α] [DecidableEq ι]

/-- A list is duplicate-free when each of its classes is. -/
theorem nodup_of_classes {l : List α} (key : α → ι)
    (h : ∀ i, (l.filter fun x => key x = i).Nodup) : l.Nodup := by
  rw [List.nodup_iff_count_le_one]
  intro a
  have hc := List.nodup_iff_count_le_one.mp (h (key a)) a
  rwa [List.count_filter (by simp)] at hc

/-- An element that only the part of index `i` can hold is counted there. -/
theorem count_flatMap_of_nodup {l : List ι} (hl : l.Nodup) {f : ι → List α} {a : α} {i : ι}
    (h : ∀ j, j ∈ l → j ≠ i → a ∉ f j) :
    (l.flatMap f).count a = if i ∈ l then (f i).count a else 0 := by
  induction l with
  | nil => rfl
  | cons j l ih =>
    obtain ⟨hj, hl⟩ := List.nodup_cons.mp hl
    have ih := ih hl fun k hk => h k (List.mem_cons_of_mem _ hk)
    rw [List.flatMap_cons, List.count_append, ih]
    by_cases hji : j = i
    · subst hji
      rw [if_neg hj, if_pos List.mem_cons_self, Nat.add_zero]
    · have hzero : (f j).count a = 0 := List.count_eq_zero.mpr (h j List.mem_cons_self hji)
      have hmem : i ∈ j :: l ↔ i ∈ l := by simp [Ne.symm hji]
      simp only [hzero, hmem, Nat.zero_add]

/-- One holder pays into, or draws from, a common stock; the others keep what they have. -/
theorem budget_le {T : Finset ι} {i : ι} (hi : i ∈ T) {f f' : ι → ℕ} {a a' : ℕ}
    (hothers : ∀ j, j ≠ i → f' j = f j) (hpay : a' + f' i ≤ a + f i) :
    a' + ∑ j ∈ T, f' j ≤ a + ∑ j ∈ T, f j := by
  have hsum : ∑ j ∈ T.erase i, f' j = ∑ j ∈ T.erase i, f j :=
    Finset.sum_congr rfl fun j hj => hothers j (Finset.ne_of_mem_erase hj)
  rw [← Finset.add_sum_erase T f hi, ← Finset.add_sum_erase T f' hi, hsum]
  omega

end Ticklog.Lib
