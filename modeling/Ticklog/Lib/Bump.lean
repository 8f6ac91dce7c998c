import Mathlib.Data.List.Basic

/-!
# Address ranges and bump allocation

A `Span` is a range of addresses. A bump allocator cuts spans off the front of a region and moves
the region's cursor behind them; it may work on several regions at once. `Carved` says what makes
the result sound: the regions lie apart, no cursor is past its region's end, and every span
handed out lies in front of the cursor of some region, apart from every other. The two steps that
keep it are `Carved.bump`, which moves one cursor, and `Carved.push`, which adds a region; neither
asks who moved the cursor or when, so they serve any interleaving of allocating threads.
-/

namespace Ticklog.Lib

universe u

/-- The addresses `[base, base + len)`. -/
structure Span where
  base : Nat
  len : Nat
deriving DecidableEq, Repr

namespace Span

def stop (a : Span) : Nat := a.base + a.len

/-- No address in common. -/
def Apart (a b : Span) : Prop := a.stop ≤ b.base ∨ b.stop ≤ a.base

def Within (a b : Span) : Prop := b.base ≤ a.base ∧ a.stop ≤ b.stop

instance (a b : Span) : Decidable (a.Apart b) := inferInstanceAs (Decidable (_ ∨ _))

theorem Within.refl (a : Span) : a.Within a := ⟨Nat.le_refl _, Nat.le_refl _⟩

theorem Within.trans {a b c : Span} (h : a.Within b) (h' : b.Within c) : a.Within c :=
  ⟨Nat.le_trans h'.1 h.1, Nat.le_trans h.2 h'.2⟩

theorem Apart.symm {a b : Span} (h : a.Apart b) : b.Apart a := Or.symm h

/-- Parts of spans that lie apart lie apart. -/
theorem Apart.mono {a a' b b' : Span} (h : a'.Apart b') (ha : a.Within a') (hb : b.Within b') :
    a.Apart b := by
  rcases h with h | h
  · exact Or.inl (Nat.le_trans ha.2 (Nat.le_trans h hb.1))
  · exact Or.inr (Nat.le_trans hb.2 (Nat.le_trans h ha.1))

end Span

section Regions

variable {ρ : Type u} (span : ρ → Span) (used : ρ → Nat)

/-- The part of a region in front of its cursor. -/
def taken (r : ρ) : Span := ⟨(span r).base, used r⟩

/-- Regions that lie apart, and the spans cut off them, which lie apart too. -/
structure Carved (regions : List ρ) (given : List Span) : Prop where
  apart : (regions.map span).Pairwise Span.Apart
  fits : ∀ r ∈ regions, used r ≤ (span r).len
  inside : ∀ b ∈ given, ∃ r ∈ regions, b.Within (taken span used r)
  disjoint : given.Pairwise Span.Apart

variable {span used} {regions : List ρ} {given : List Span}

/-- Nothing is handed out yet. -/
theorem Carved.nil (hapart : (regions.map span).Pairwise Span.Apart)
    (hfits : ∀ r ∈ regions, used r ≤ (span r).len) : Carved span used regions [] :=
  ⟨hapart, hfits, fun _ hb => absurd hb List.not_mem_nil, List.Pairwise.nil⟩

/-- What is in front of the cursor is in the region. -/
theorem Carved.taken_within (h : Carved span used regions given) {r : ρ} (hr : r ∈ regions) :
    (taken span used r).Within (span r) :=
  ⟨Nat.le_refl _, Nat.add_le_add_left (h.fits r hr) _⟩

/-- Every span handed out lies in a region. -/
theorem Carved.within (h : Carved span used regions given) {b : Span} (hb : b ∈ given) :
    ∃ r ∈ regions, b.Within (span r) := by
  obtain ⟨r, hr, hin⟩ := h.inside b hb
  exact ⟨r, hr, hin.trans (h.taken_within hr)⟩

/-- Two places of the list hold regions that lie apart. -/
theorem Carved.apart_of_ne (h : Carved span used regions given) {i j : Nat} {r r' : ρ}
    (hi : regions[i]? = some r) (hj : regions[j]? = some r') (hne : i ≠ j) :
    (span r).Apart (span r') := by
  obtain ⟨hli, rfl⟩ := List.getElem?_eq_some_iff.mp hi
  obtain ⟨hlj, rfl⟩ := List.getElem?_eq_some_iff.mp hj
  have hp := List.pairwise_iff_getElem.mp h.apart
  simp only [List.length_map, List.getElem_map] at hp
  rcases Nat.lt_or_gt_of_ne hne with hlt | hgt
  · exact hp i j hli hlj hlt
  · exact (hp j i hlj hli hgt).symm

/-- **Moving a cursor.** A span cut off behind the cursor of one region is apart from every span
handed out before. -/
theorem Carved.bump (h : Carved span used regions given) {i : Nat} {r r' : ρ} {b : Span}
    (hi : regions[i]? = some r) (hspan : span r' = span r) (hle : used r ≤ used r')
    (hfit : used r' ≤ (span r).len) (hlo : (span r).base + used r ≤ b.base)
    (hhi : b.stop ≤ (span r).base + used r') :
    Carved span used (regions.set i r') (given ++ [b]) := by
  obtain ⟨hlt, hget⟩ := List.getElem?_eq_some_iff.mp hi
  have hr : r ∈ regions := List.mem_of_getElem? hi
  have hmap : (regions.set i r').map span = regions.map span := by
    rw [List.map_set, hspan, ← hget, ← List.getElem_map span (h := by simpa using hlt)]
    exact List.set_getElem_self _
  -- a span in front of a cursor stays in front of it
  have hstay : ∀ c ∈ given, ∃ q ∈ regions.set i r', c.Within (taken span used q) := by
    intro c hc
    obtain ⟨q, hq, hin⟩ := h.inside c hc
    obtain ⟨j, hlj, hj⟩ := List.getElem_of_mem hq
    by_cases heq : i = j
    · subst heq
      obtain rfl : r = q := hget.symm.trans hj
      refine ⟨r', List.mem_set hlt r', ?_⟩
      unfold taken at hin ⊢
      rw [hspan]
      exact hin.trans ⟨Nat.le_refl _, Nat.add_le_add_left hle _⟩
    · refine ⟨q, ?_, hin⟩
      apply List.mem_of_getElem? (i := j)
      rw [List.getElem?_set_ne heq, List.getElem?_eq_some_iff]
      exact ⟨hlj, hj⟩
  refine ⟨hmap ▸ h.apart, ?_, ?_, ?_⟩
  · intro q hq
    rcases List.mem_or_eq_of_mem_set hq with hq | rfl
    · exact h.fits q hq
    · rw [hspan]
      exact hfit
  · intro c hc
    rcases List.mem_append.mp hc with hc | hc
    · exact hstay c hc
    · obtain rfl := List.mem_singleton.mp hc
      refine ⟨r', List.mem_set hlt r', ?_, ?_⟩
      · show (span r').base ≤ c.base
        rw [hspan]
        omega
      · show c.stop ≤ (span r').base + used r'
        rw [hspan]
        exact hhi
  · rw [List.pairwise_append]
    refine ⟨h.disjoint, List.pairwise_singleton _ _, ?_⟩
    intro c hc d hd
    obtain rfl := List.mem_singleton.mp hd
    obtain ⟨q, hq, hin⟩ := h.inside c hc
    obtain ⟨j, hlj, hj⟩ := List.getElem_of_mem hq
    by_cases heq : i = j
    · subst heq
      obtain rfl : r = q := hget.symm.trans hj
      exact Or.inl (Nat.le_trans hin.2 hlo)
    · have hapart := h.apart_of_ne hi (List.getElem?_eq_some_iff.mpr ⟨hlj, hj⟩) heq
      refine (hapart.mono ?_ (hin.trans (h.taken_within hq))).symm
      exact ⟨by omega, Nat.le_trans hhi (Nat.add_le_add_left hfit _)⟩

/-- **Adding a region** that lies apart from the others. -/
theorem Carved.push (h : Carved span used regions given) {r : ρ}
    (hapart : ∀ a ∈ regions, (span a).Apart (span r)) (hfit : used r ≤ (span r).len) :
    Carved span used (regions ++ [r]) given := by
  refine ⟨?_, ?_, ?_, h.disjoint⟩
  · rw [List.map_append, List.pairwise_append]
    refine ⟨h.apart, List.pairwise_singleton _ _, ?_⟩
    intro a ha b hb
    obtain ⟨q, hq, rfl⟩ := List.mem_map.mp ha
    obtain rfl := List.mem_singleton.mp hb
    exact hapart q hq
  · intro q hq
    rcases List.mem_append.mp hq with hq | hq
    · exact h.fits q hq
    · rw [List.mem_singleton.mp hq]
      exact hfit
  · intro b hb
    obtain ⟨q, hq, hin⟩ := h.inside b hb
    exact ⟨q, List.mem_append_left _ hq, hin⟩

end Regions

end Ticklog.Lib
