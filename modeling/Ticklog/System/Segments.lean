import Ticklog.System.Classic

/-!
# A thread's segments in turn (`Backpressure::Quill`)

A thread that switches to a fresh segment has handed off every earlier one. So of the rings
of one thread all but the last registered are final, they die only when the guard marks
them, and their records come before those of the later rings.
-/

namespace Ticklog

open Lib

namespace Sys

variable {cfg : Config} {s s' : Sys}

/-- Two registered rings of one thread, in the order of registration. -/
structure Older (s : Sys) (r r' : Nat) : Prop where
  left : r ∈ s.registered
  right : r' ∈ s.registered
  thread : (s.rings r).threadId = (s.rings r').threadId
  earlier : Earlier s r r'

/-- The drain will not touch ring `r` again, or has nothing to find there. -/
def Over (s : Sys) (r : Nat) : Prop := Retired s r ∨ ¬ Known s r

theorem Older.irrefl {r : Nat} : ¬ Older s r r := fun h => Nat.lt_irrefl _ h.earlier

theorem Older.after {a : Action} {r r' : Nat} (h : Older s r r') (hp : PlainInv s)
    (hstep : step cfg s a = some s') : Older s' r r' := by
  have hg := step_grows hp hstep h.left
  have hg' := step_grows hp hstep h.right
  refine ⟨step_registered hstep h.left, step_registered hstep h.right, ?_, ?_⟩
  · rw [hg.threadId, hg'.threadId, h.thread]
  · exact (Earlier.step hp hstep h.left h.right).mpr h.earlier

/-- Registered rings precede the one being registered. -/
theorem serial_lt (hp : PlainInv s) {r : Nat} (hr : r ∈ s.registered) :
    (s.rings r).serial < s.nextSerial := by
  obtain ⟨k, hk⟩ := List.mem_iff_getElem?.mp hr
  rw [hp.serials k r hk, hp.count]
  exact (List.getElem?_eq_some_iff.mp hk).1

/-- Older than a ring registered before the step: so it was then. -/
theorem Older.back {a : Action} {r r' : Nat} (h : Older s' r r') (hp : PlainInv s)
    (hstep : step cfg s a = some s') (hr' : r' ∈ s.registered) : Older s r r' := by
  have hr : r ∈ s.registered := by
    rcases step_registers hstep with ⟨heq, -⟩ | ⟨t, r₀, rfl, hpc, hl, rfl⟩
    · rw [← heq]
      exact h.left
    · rcases List.mem_append.mp h.left with hr | hr
      · exact hr
      · -- the new ring is the latest
        have hearly := h.earlier
        unfold Earlier at hearly
        rw [(step_grows hp hstep hr').serial, List.mem_singleton.mp hr,
          show ((s.registerRing r₀).goto t (.switch r₀)).rings
            = Function.update s.rings r₀ { s.rings r₀ with serial := s.nextSerial } from rfl,
          Function.update_self] at hearly
        exact absurd (serial_lt hp hr') (Nat.not_lt_of_gt hearly)
  have hg := step_grows hp hstep hr
  have hg' := step_grows hp hstep hr'
  refine ⟨hr, hr', ?_, ?_⟩
  · rw [← hg.threadId, ← hg'.threadId, h.thread]
  · exact (Earlier.step hp hstep hr hr').mp h.earlier

/-- The drain does not come to know a registered ring again. -/
theorem unknown_step {a : Action} (hp : PlainInv s) (hstep : step cfg s a = some s') {r : Nat}
    (hr : r ∈ s.registered) (h : ¬ Known s r) : ¬ Known s' r := by
  by_cases ha : a = .drain
  · subst ha
    exact fun hk => h (drain_known (drainStep_move hstep) hk)
  · obtain ⟨hd, -⟩ := step_drain_frame ha hstep
    intro hk
    apply h
    unfold Known at hk ⊢
    rw [hd] at hk
    refine hk.imp (fun hk => ?_) id
    rcases step_registers hstep with ⟨-, hreg⟩ | ⟨t, r₀, rfl, hpc, hl, rfl⟩
    · rwa [hreg ha] at hk
    · have ht := hp.threads t
      unfold ThreadOk at ht
      simp only [hpc] at ht
      have hne : r ≠ r₀ := by
        rintro rfl
        exact ht.2.1 hr
      change r ∈ (if r₀ ∈ s.registry then s.registry else s.registry ++ [r₀]) at hk
      split at hk
      · exact hk
      · exact (List.mem_append.mp hk).resolve_right fun hm => hne (List.mem_singleton.mp hm)

theorem Over.after {a : Action} {r : Nat} (h : Over s r) (hp : PlainInv s) (hdel' : DeliveryInv s')
    (hstep : step cfg s a = some s') (hr : r ∈ s.registered) : Over s' r :=
  h.imp (fun hR => hR.step hp hdel' hstep hr) (unknown_step hp hstep hr)

/-! ## Earlier segments are final -/

structure SegmentInv (s : Sys) : Prop where
  /-- A ring that is not handed off is its thread's current one, unless that has exited. -/
  current : ∀ r, r ∈ s.registered → (s.rings r).handedOff = false →
    (s.threads (s.rings r).threadId).ring = some r ∨
    (s.threads (s.rings r).threadId).pc = .switch r ∨
    (s.threads (s.rings r).threadId).pc = .exited
  final : ∀ r r', Older s r r' → (s.rings r).handedOff = true
  inOrder : ∀ r r', Older s r r' → ∀ x y, x ∈ (s.rings r).cells → y ∈ (s.rings r').cells →
    x.seq < y.seq

theorem init_segments : SegmentInv (Sys.init cfg) :=
  ⟨nofun, fun _ _ h => absurd h.left List.not_mem_nil,
    fun _ _ h => absurd h.left List.not_mem_nil⟩

/-- A thread keeps its current ring until it is handed off or the thread exits. -/
theorem current_step (hp : PlainInv s) {a : Action} (hstep : step cfg s a = some s') {t r : Nat}
    (hoff : (s.rings r).handedOff = false)
    (h : (s.threads t).ring = some r ∨ (s.threads t).pc = .switch r ∨
      (s.threads t).pc = .exited) :
    (s'.threads t).ring = some r ∨ (s'.threads t).pc = .switch r ∨
      (s'.threads t).pc = .exited := by
  by_cases hex : (s.threads t).pc = .exited
  · rw [exited_stays hstep hex]
    exact Or.inr (Or.inr hex)
  have h : (s.threads t).ring = some r ∨ (s.threads t).pc = .switch r :=
    h.imp id fun h => h.resolve_right hex
  -- a thread that did not move
  have hset : ∀ {s₁ : Sys} {t' : Nat} {th : Thread}, s₁.threads = s.threads →
      (t = t' → th.ring = some r ∨ th.pc = .switch r ∨ th.pc = .exited) →
      ((s₁.setThread t' th).threads t).ring = some r ∨
        ((s₁.setThread t' th).threads t).pc = .switch r ∨
        ((s₁.setThread t' th).threads t).pc = .exited := by
    intro s₁ t' th hth himp
    rw [setThread_threads, hth]
    by_cases ht : t = t'
    · subst ht
      rw [Function.update_self]
      exact himp rfl
    · rw [Function.update_of_ne ht]
      exact h.imp id Or.inl
  -- a move that keeps the ring and is not made from `switch`
  have hkeep : ∀ {s₁ : Sys} {t' : Nat} {pc : ThreadPc}, s₁.threads = s.threads →
      (∀ r', (s.threads t').pc ≠ .switch r') →
      ((s₁.goto t' pc).threads t).ring = some r ∨ ((s₁.goto t' pc).threads t).pc = .switch r ∨
        ((s₁.goto t' pc).threads t).pc = .exited := by
    intro s₁ t' pc hth hne
    refine hset hth fun ht => Or.inl ?_
    rw [hth]
    exact ht ▸ h.resolve_right (ht ▸ hne r)
  cases a with
  | log t' total =>
    dsimp only [step, log] at hstep
    split at hstep
    next hok =>
      split at hstep
      all_goals
        cases hstep
        refine hset rfl fun ht => Or.inl ?_
        exact ht ▸ h.resolve_right (by rw [ht, hok.1]; nofun)
    next => cases hstep
  | exit t' =>
    dsimp only [step, exit] at hstep
    split at hstep
    next hok =>
      split at hstep
      all_goals
        cases hstep
        exact hset rfl fun _ => Or.inr (Or.inr rfl)
    next => cases hstep
  | wake t' =>
    exact absurd (wake_inv hstep).1 (hp.not_asleep t')
  | drain =>
    rw [drain_threads (drainStep_move hstep) (hp.not_asleep t)]
    exact h.imp id Or.inl
  | guard =>
    have hm : GuardMove s s' := guardStep_move hstep
    cases hm <;> exact h.imp id Or.inl
  | thread t' =>
    have hm : ThreadMove cfg t' s s' := threadStep_move hstep
    have ht := hp.threads t'
    unfold ThreadOk at ht
    cases hm with
    | @switch r' hpc =>
      simp only [hpc] at ht
      refine hset rfl fun heq => Or.inl ?_
      subst heq
      rcases h with h | h
      · -- the ring it leaves is handed off
        have hl := (ht.2.2 r h).2
        rw [hoff] at hl
        cases hl
      · rw [hpc] at h
        cases h
        rfl
    | publish hpc hr =>
      refine hset rfl fun heq => Or.inl ?_
      exact heq ▸ h.resolve_right (by rw [heq, hpc]; nofun)
    | formatSpin => exact h.imp id Or.inl
    | takeSpare hpc hr hsp =>
      rw [hp.spares] at hsp
      cases hsp
    | takeFirst hpc hseg hsp =>
      rw [hp.spares] at hsp
      cases hsp
    | noSpare hpc hr hsp =>
      exact hkeep rfl (by rcases hpc with ⟨hpc, -⟩ | ⟨hpc, -⟩ | ⟨hpc, -⟩ <;> rw [hpc] <;> nofun)
    | recycle hpc hr => simp only [hpc] at ht
    | allocFirst hpc | reset hpc | resetLast hpc | setInfo hpc | register hpc | granted hpc
    | full hpc | spin hpc | markHandedOff hpc | allocFresh hpc | reserveHelper hpc
    | formatEnter hpc | formatDone hpc | format hpc | pushLines hpc | poolLive hpc
    | poolWait hpc => exact hkeep rfl (by rw [hpc]; nofun)

/-- The records of a ring carry increasing numbers, below its thread's counter. -/
theorem cells_numbered (hn : Numbered s) (ha : Authored s) (hdel : DeliveryInv s) {r : Nat}
    {x : Rec} (hx : x ∈ (s.rings r).cells) :
    x.thread = (s.rings r).threadId ∧ x.seq < (s.threads x.thread).seq := by
  rw [← (hdel r).history] at hx
  obtain ⟨hpub, hring⟩ := List.mem_filter.mp hx
  have hring : x.ring = r := of_decide_eq_true hring
  refine ⟨by rw [← hring]; exact (ha x hpub).2.symm, ?_⟩
  have hseq : x.seq ∈ (s.publishedBy x.thread).map Rec.seq :=
    List.mem_map.mpr ⟨x, List.mem_filter.mpr ⟨hpub, by simp⟩, rfl⟩
  rw [hn x.thread] at hseq
  exact List.mem_range.mp hseq

/-- What a step does to the records of a registered ring. -/
theorem step_cells {a : Action} (hdel : DeliveryInv s) (hdel' : DeliveryInv s')
    (hstep : step cfg s a = some s') (r : Nat) :
    (s'.rings r).cells = (s.rings r).cells ∨
    ∃ t, a = .thread t ∧ (s.threads t).pc = .publish ∧ (s.threads t).ring = some r ∧
      (s'.rings r).cells = (s.rings r).cells ++
        [⟨t, (s.threads t).seq, r, (s.threads t).total⟩] := by
  rw [← (hdel' r).history, ← (hdel r).history]
  rcases step_publishes hstep with ⟨t, r₀, rfl, hpc, hr₀, rfl⟩ | ⟨hpub, -⟩
  · rw [show (publish t r₀ s).published
      = s.published ++ [⟨t, (s.threads t).seq, r₀, (s.threads t).total⟩] from rfl,
      List.filter_append]
    by_cases hne : r₀ = r
    · subst hne
      exact Or.inr ⟨t, rfl, hpc, hr₀, by simp⟩
    · exact Or.inl (by simp [hne])
  · rw [hpub]
    exact Or.inl rfl

theorem step_segments {a : Action} (h : SegmentInv s) (hp : PlainInv s) (hp' : PlainInv s')
    (hn : Numbered s) (ha : Authored s) (hdel : DeliveryInv s) (hdel' : DeliveryInv s')
    (hstep : step cfg s a = some s') : SegmentInv s' := by
  -- the rings of a registering thread are all handed off
  have hleft : ∀ {t r₀ : Nat}, (s.threads t).pc = .register r₀ → ∀ r, r ∈ s.registered →
      (s.rings r).threadId = t → (s.rings r).handedOff = true := by
    intro t r₀ hpc r hr hid
    by_contra hoff
    have ht := hp.threads t
    unfold ThreadOk at ht
    simp only [hpc] at ht
    rcases h.current r hr (Bool.eq_false_iff.mpr hoff) with hc | hc | hc
    · rw [hid] at hc
      exact hoff (ht.2.2.2 r hc).2
    · rw [hid, hpc] at hc
      cases hc
    · rw [hid, hpc] at hc
      cases hc
  have hfinal : ∀ r r', Older s' r r' → (s'.rings r).handedOff = true := by
    intro r r' hold
    rcases step_registers hstep with ⟨hregd, -⟩ | ⟨t, r₀, rfl, hpc, hl, rfl⟩
    · have hback := hold.back hp hstep (hregd ▸ hold.right)
      exact (step_grows hp hstep hback.left).handedOff (h.final r r' hback)
    · rcases List.mem_append.mp hold.right with hr' | hr'
      · have hback := hold.back hp hstep hr'
        exact (step_grows hp hstep hback.left).handedOff (h.final r r' hback)
      · -- the new ring: its thread has left all others
        have hr' : r' = r₀ := List.mem_singleton.mp hr'
        subst hr'
        have hne : r ≠ r' := by
          rintro rfl
          exact Older.irrefl hold
        have hr : r ∈ s.registered := by
          rcases List.mem_append.mp hold.left with hr | hr
          · exact hr
          · exact absurd (List.mem_singleton.mp hr) hne
        have hid : (s.rings r).threadId = t := by
          have ht := hp.threads t
          unfold ThreadOk at ht
          simp only [hpc] at ht
          have hself : (((s.registerRing r').goto t (.switch r')).rings r').threadId = t := by
            rw [show ((s.registerRing r').goto t (.switch r')).rings
              = Function.update s.rings r' { s.rings r' with serial := s.nextSerial } from rfl,
              Function.update_self]
            exact ht.2.2.1
          rw [← (step_grows hp hstep hr).threadId, hold.thread, hself]
        exact (step_grows hp hstep hr).handedOff (hleft hpc r hr hid)
  refine ⟨fun r hr hoff => ?_, hfinal, fun r r' hold x y hx hy => ?_⟩
  · rcases step_registers hstep with ⟨hregd, -⟩ | ⟨t, r₀, rfl, hpc, hl, rfl⟩
    · have hr₀ : r ∈ s.registered := hregd ▸ hr
      have hg := step_grows hp hstep hr₀
      have hoff₀ : (s.rings r).handedOff = false :=
        Bool.eq_false_iff.mpr fun hh => absurd (hg.handedOff hh) (by simp [hoff])
      rw [hg.threadId]
      exact current_step hp hstep hoff₀ (h.current r hr₀ hoff₀)
    · rcases List.mem_append.mp hr with hr₁ | hr₁
      · have hg := step_grows hp hstep hr₁
        have hoff₀ : (s.rings r).handedOff = false :=
          Bool.eq_false_iff.mpr fun hh => absurd (hg.handedOff hh) (by simp [hoff])
        rw [hg.threadId]
        exact current_step hp hstep hoff₀ (h.current r hr₁ hoff₀)
      · have hr₁ : r = r₀ := List.mem_singleton.mp hr₁
        subst hr₁
        have ht := hp.threads t
        unfold ThreadOk at ht
        simp only [hpc] at ht
        have hself : (((s.registerRing r).goto t (.switch r)).rings r).threadId = t := by
          rw [show ((s.registerRing r).goto t (.switch r)).rings
            = Function.update s.rings r { s.rings r with serial := s.nextSerial } from rfl,
            Function.update_self]
          exact ht.2.2.1
        rw [hself, goto_eq, setThread_threads, Function.update_self]
        exact Or.inr (Or.inl rfl)
  · by_cases hr' : r' ∈ s.registered
    · have hback := hold.back hp hstep hr'
      rcases step_cells hdel hdel' hstep r with hc | ⟨t, rfl, hpc, hr, hc⟩
      · rw [hc] at hx
        rcases step_cells hdel hdel' hstep r' with hc' | ⟨t, rfl, hpc, hr, hc'⟩
        · rw [hc'] at hy
          exact h.inOrder r r' hback x y hx hy
        · rw [hc'] at hy
          rcases List.mem_append.mp hy with hy | hy
          · exact h.inOrder r r' hback x y hx hy
          · -- a new record follows everything its thread published
            rw [List.mem_singleton.mp hy]
            obtain ⟨hthread, hlt⟩ := cells_numbered hn ha hdel hx
            rw [hthread, hback.thread, (hp.ring_mine hr).2] at hlt
            exact hlt
      · -- nobody publishes in a ring that is not the last
        have hoff := h.final r r' hback
        have ht := hp.threads t
        unfold ThreadOk at ht
        simp only [hpc] at ht
        have hw := (ht r hr).2
        rw [hoff] at hw
        cases hw
    · -- a ring just registered is empty
      rcases step_registers hstep with ⟨hregd, -⟩ | ⟨t, r₀, rfl, hpc, hl, rfl⟩
      · exact absurd (hregd ▸ hold.right) hr'
      · have hr₁ : r' = r₀ := by
          rcases List.mem_append.mp hold.right with h' | h'
          · exact absurd h' hr'
          · exact List.mem_singleton.mp h'
        rcases step_cells hdel hdel' hstep r' with hc' | ⟨t', ht', hpc', hr, -⟩
        · rw [hc', (hp.blank r' hr').cells] at hy
          cases hy
        · exact absurd (hp.ring_mine hr).1 hr'

/-- Only the guard kills a ring that is not its thread's last. -/
theorem older_live {a : Action} (h : SegmentInv s) (hp : PlainInv s)
    (hstep : step cfg s a = some s') (hguard : ∀ todo, s.guard ≠ .marking todo) {r r' : Nat}
    (hold : Older s r r') : (s'.rings r).live = (s.rings r).live := by
  have hg := step_grows hp hstep hold.left
  cases hl' : (s'.rings r).live with
  | true => exact (hg.live hl').symm
  | false =>
    obtain ⟨-, hwas | ⟨t, rfl, hring⟩ | ⟨-, todo, hmark⟩⟩ :=
      dies hp hstep (step_registered hstep hold.left) hl'
    · exact hwas.symm
    · have hoff := h.final r r' hold
      have ht := hp.threads t
      unfold ThreadOk at ht
      simp only [step, exit] at hstep
      split at hstep
      next hpc =>
        simp only [hpc] at ht
        have hw := (ht r hring).2
        rw [hoff] at hw
        cases hw
      next => cases hstep
    · exact absurd hmark (hguard todo)

end Sys

end Ticklog
