import Ticklog.Arena.Machine

/-!
# No two threads are handed the same byte

Whatever the interleaving, the regions stay apart and the blocks cut off them lie apart. What
carries it is `CarveMove`: a step changes no region, moves the cursor of one region from where it
stands, or adds a region the system has just mapped. Nothing is asked of the lock: the
exchange alone keeps two threads from the same block, a lost race or a spurious failure included.
-/

namespace Ticklog

open Lib

namespace Arena

variable {cfg : ArenaConfig} {s s' : Arena}

/-- Every region, primary and spill. -/
def regions (s : Arena) : List ArenaRegion := s.primary ++ s.spill

/-- What one access does to the regions and to the blocks handed out. -/
inductive CarveMove (cfg : ArenaConfig) (s s' : Arena) : Prop where
  | quiet (hprimary : s'.primary = s.primary) (hspill : s'.spill = s.spill)
      (hgiven : s'.given = s.given)
  /-- An exchange finds the cursor where its thread read it. -/
  | block (t size : Nat) (place : Place) (r : ArenaRegion) (addr newCur : Nat)
      (hpc : (s.threads t).pc = .exchange place size r.used)
      (hr : s.region? place = some r)
      (hbump : r.bump r.used size cfg.align = some (addr, newCur))
      (hprimary : s'.primary = (s.setRegion place { r with used := newCur }).primary)
      (hspill : s'.spill = (s.setRegion place { r with used := newCur }).spill)
      (hgiven : s'.given = s.given ++ [⟨addr, size⟩])
  | mapped (t ptr size addr newCur : Nat)
      (hpc : (s.threads t).pc = .mapSpill size)
      (hfree : s.Unmapped ⟨ptr, cfg.spillSize⟩)
      (hbump : (⟨ptr, cfg.spillSize, 0⟩ : ArenaRegion).bump 0 size cfg.align
        = some (addr, newCur))
      (hprimary : s'.primary = s.primary)
      (hspill : s'.spill = s.spill ++ [⟨ptr, cfg.spillSize, newCur⟩])
      (hgiven : s'.given = s.given ++ [⟨addr, size⟩])

theorem tryBump_quiet (t : Nat) (place : Place) (size cur : Nat) (r : ArenaRegion) :
    CarveMove cfg s (tryBump cfg t place size cur r s) := by
  unfold tryBump
  split <;> exact .quiet rfl rfl rfl

/-- A region's place in the list of all regions. -/
theorem region_index {place : Place} {r : ArenaRegion} (hr : s.region? place = some r) :
    ∃ i, s.regions[i]? = some r ∧
      ∀ r', (s.setRegion place r').regions = s.regions.set i r' := by
  unfold regions
  cases place with
  | primary i =>
    have hlt : i < s.primary.length := (List.getElem?_eq_some_iff.mp hr).1
    refine ⟨i, ?_, ?_⟩
    · rw [List.getElem?_append_left hlt]
      exact hr
    · intro r'
      exact (List.set_append_left i r' hlt).symm
  | spill j =>
    refine ⟨s.primary.length + j, ?_, ?_⟩
    · rw [List.getElem?_append_right (Nat.le_add_right _ _), Nat.add_sub_cancel_left]
      exact hr
    · intro r'
      rw [List.set_append_right _ _ (Nat.le_add_right _ _), Nat.add_sub_cancel_left]
      rfl

/-- **One access.** -/
theorem step_carves {a : ArenaAction} (hstep : step cfg s a = some s') : CarveMove cfg s s' := by
  have htry : ∀ {t place size cur r}, some (tryBump cfg t place size cur r s) = some s' →
      CarveMove cfg s s' := by
    intro t place size cur r heq
    cases heq
    exact tryBump_quiet ..
  cases a with
  | alloc t size =>
    unfold step alloc at hstep
    dsimp only at hstep
    repeat' split at hstep
    all_goals cases hstep
    all_goals exact .quiet rfl rfl rfl
  | thread t =>
    unfold step threadStep at hstep
    dsimp only at hstep
    split at hstep
    next => cases hstep
    next => cases hstep
    next => cases hstep
    next =>
      cases hstep
      exact .quiet rfl rfl rfl
    next =>
      split at hstep
      next => exact htry hstep
      next => cases hstep
    next place size cur hpc =>
      split at hstep
      next r hr =>
        unfold exchange at hstep
        split at hstep
        next addr newCur hbump =>
          split at hstep
          next hused =>
            -- nobody moved the cursor: the block is ours
            cases hstep
            subst hused
            cases place with
            | primary i => exact .block t size _ r addr newCur hpc hr hbump rfl rfl rfl
            | spill j => exact .block t size _ r addr newCur hpc hr hbump rfl rfl rfl
          next => exact htry hstep
        next =>
          cases hstep
          exact .quiet rfl rfl rfl
      next => cases hstep
    next =>
      split at hstep
      next =>
        cases hstep
        exact .quiet rfl rfl rfl
      next => cases hstep
    next =>
      split at hstep
      all_goals
        cases hstep
        exact .quiet rfl rfl rfl
    next =>
      cases hstep
      exact .quiet rfl rfl rfl
  | spurious t =>
    unfold step spurious at hstep
    dsimp only at hstep
    split at hstep
    next =>
      split at hstep
      next => exact htry hstep
      next => cases hstep
    next => cases hstep
  | map t ptr =>
    unfold step mapSpill at hstep
    dsimp only at hstep
    split at hstep
    next size hpc =>
      split at hstep
      next hfree =>
        split at hstep
        next addr newCur hbump =>
          cases hstep
          exact .mapped t ptr size addr newCur hpc hfree hbump rfl rfl rfl
        next =>
          cases hstep
          exact .quiet rfl rfl rfl
      next => cases hstep
    next => cases hstep

/-! ## The invariant -/

/-- The regions lie apart in the lower half of the address space, and so do the blocks in
them. -/
structure ArenaInv (s : Arena) : Prop where
  carved : Carved ArenaRegion.span ArenaRegion.used s.regions s.given
  low : ∀ r ∈ s.regions, r.span.stop ≤ 2 ^ 63

/-- Where a block that fits lies, and where the cursor goes. -/
theorem bump_spec {r : ArenaRegion} {cur size addr newCur : Nat}
    (hbump : r.bump cur size cfg.align = some (addr, newCur)) (hcur : cur ≤ r.len)
    (hlow : r.span.stop ≤ 2 ^ 63) :
    r.ptr + cur ≤ addr ∧ addr + size = r.ptr + newCur ∧ newCur ≤ r.len ∧ cfg.align ∣ addr := by
  unfold ArenaRegion.bump at hbump
  dsimp only at hbump
  have hpow : 2 ^ cfg.alignBits ≤ 2 ^ 62 := Nat.pow_le_pow_right (by decide) cfg.align_le
  have hstop : r.ptr + r.len ≤ 2 ^ 63 := hlow
  have hspec := alignUp_spec (x := r.ptr + cur) (k := cfg.alignBits)
    (Nat.le_trans cfg.align_le (by decide)) (by unfold wordSize; omega)
  unfold ArenaConfig.align at hbump ⊢
  obtain ⟨hle, -, hdvd⟩ := hspec
  split at hbump
  next hfit =>
    cases hbump
    exact ⟨hle, by omega, hfit.2, hdvd⟩
  next => cases hbump

theorem step_inv {a : ArenaAction} (h : ArenaInv s) (hstep : step cfg s a = some s') :
    ArenaInv s' := by
  cases step_carves hstep with
  | quiet hprimary hspill hgiven =>
    have hregions : s'.regions = s.regions := by
      unfold regions
      rw [hprimary, hspill]
    exact ⟨hregions ▸ hgiven ▸ h.carved, hregions ▸ h.low⟩
  | block t size place r addr newCur hpc hr hbump hprimary hspill hgiven =>
    obtain ⟨i, hi, hset⟩ := region_index hr
    have hregions : s'.regions = s.regions.set i { r with used := newCur } := by
      rw [← hset]
      unfold regions
      rw [hprimary, hspill]
    have hmem : r ∈ s.regions := List.mem_of_getElem? hi
    obtain ⟨hle, hend, hfit, -⟩ := bump_spec hbump (h.carved.fits r hmem) (h.low r hmem)
    have hcur : r.used ≤ newCur := by omega
    refine ⟨?_, ?_⟩
    · rw [hregions, hgiven]
      refine h.carved.bump hi ?_ hcur hfit hle ?_
      · rfl
      · exact Nat.le_of_eq hend
    · intro q hq
      rw [hregions] at hq
      rcases List.mem_or_eq_of_mem_set hq with hq | rfl
      · exact h.low q hq
      · exact h.low r hmem
  | mapped t ptr size addr newCur hpc hfree hbump hprimary hspill hgiven =>
    have hregions : s'.regions = s.regions ++ [⟨ptr, cfg.spillSize, newCur⟩] := by
      unfold regions
      rw [hprimary, hspill, List.append_assoc]
    obtain ⟨hle, hend, hfit, -⟩ := bump_spec hbump (Nat.zero_le _) hfree.1
    -- the new region comes with an empty cursor, then with its first block
    have hpush := h.carved.push (r := ⟨ptr, cfg.spillSize, 0⟩) hfree.2 (Nat.zero_le _)
    have hlast : (s.regions ++ [(⟨ptr, cfg.spillSize, 0⟩ : ArenaRegion)])[s.regions.length]?
        = some ⟨ptr, cfg.spillSize, 0⟩ := by
      rw [List.getElem?_append_right (Nat.le_refl _), Nat.sub_self]
      rfl
    have hset : s'.regions = (s.regions ++ [(⟨ptr, cfg.spillSize, 0⟩ : ArenaRegion)]).set
        s.regions.length ⟨ptr, cfg.spillSize, newCur⟩ := by
      rw [hregions, List.set_append_right _ _ (Nat.le_refl _), Nat.sub_self]
      rfl
    refine ⟨?_, ?_⟩
    · rw [hset, hgiven]
      refine hpush.bump hlast ?_ (Nat.zero_le _) hfit hle ?_
      · rfl
      · exact Nat.le_of_eq hend
    · intro q hq
      rw [hregions] at hq
      rcases List.mem_append.mp hq with hq | hq
      · exact h.low q hq
      · rw [List.mem_singleton.mp hq]
        exact hfree.1

/-- The buffer is mapped in the lower half and its chunks fit. -/
theorem init_inv {base : Nat} (hfits : SplitFits cfg.mapped (max cfg.regions 1))
    (hlow : base + cfg.mapped ≤ 2 ^ 63) : ArenaInv (init cfg base) := by
  have hword : cfg.mapped < wordSize := by
    unfold wordSize
    omega
  obtain ⟨hapart, hin⟩ := splitWith_apart base hfits hword
  have hregions : (init cfg base).regions = splitWith base cfg.mapped (max cfg.regions 1) :=
    List.append_nil _
  refine ⟨?_, ?_⟩
  · rw [hregions]
    apply Carved.nil hapart
    intro r hr
    rw [(hin r hr).1]
    exact Nat.zero_le _
  · rw [hregions]
    intro r hr
    exact Nat.le_trans (hin r hr).2.2 hlow

theorem reach_inv {ok : Arena → ArenaAction → Prop} {base : Nat}
    (hfits : SplitFits cfg.mapped (max cfg.regions 1)) (hlow : base + cfg.mapped ≤ 2 ^ 63)
    (h : (arena cfg).Runs ok (init cfg base) s) : ArenaInv s :=
  h.invariant (I := ArenaInv) (fun _ _ _ hinv _ hstep => step_inv hinv hstep)
    (init_inv hfits hlow)

end Arena

end Ticklog
