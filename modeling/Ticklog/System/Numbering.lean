import Ticklog.Lib.Lists
import Ticklog.System.DrainMoves

/-!
# Publications are numbered

Each thread numbers its publications; under every policy the history of a thread is
`0, 1, 2, …` in order, so no record is published twice.
-/

namespace Ticklog

open Lib

namespace Sys

variable {cfg : Config} {s s' : Sys}

/-- An access publishes one record, or leaves the history and the counters alone. -/
theorem step_publishes {a : Action} (hstep : step cfg s a = some s') :
    (∃ t r, a = .thread t ∧ (s.threads t).pc = .publish ∧ (s.threads t).ring = some r ∧
      s' = publish t r s) ∨
    (s'.published = s.published ∧ ∀ t, (s'.threads t).seq = (s.threads t).seq) := by
  have hgoto : ∀ {s₁ : Sys} {t : Nat} {th : Thread}, s₁.threads = s.threads →
      th.seq = (s.threads t).seq → ∀ t', ((s₁.setThread t th).threads t').seq
        = (s.threads t').seq := by
    intro s₁ t th hth hseq t'
    rw [setThread_threads, hth]
    by_cases ht : t' = t
    · rw [ht, Function.update_self]
      exact hseq
    · rw [Function.update_of_ne ht]
  have hnotify : ∀ {s₁ : Sys} {r : Nat}, s₁.threads = s.threads → ∀ t',
      ((s₁.recycle r).threads t').seq = (s.threads t').seq := by
    intro s₁ r hth t'
    rw [recycle_threads, hth]
    split <;> rfl
  cases a with
  | log t total =>
    right
    obtain ⟨-, pc, -, rfl⟩ := log_inv hstep
    exact ⟨rfl, hgoto rfl rfl⟩
  | exit t =>
    right
    obtain ⟨-, ⟨r₀, -, rfl⟩ | ⟨-, rfl⟩⟩ := exit_inv hstep
    · exact ⟨rfl, hgoto rfl rfl⟩
    · exact ⟨rfl, hgoto rfl rfl⟩
  | wake t =>
    right
    obtain ⟨-, rfl⟩ := wake_inv hstep
    exact ⟨rfl, hgoto rfl rfl⟩
  | guard =>
    right
    have hm : GuardMove s s' := guardStep_move hstep
    cases hm <;> exact ⟨rfl, fun _ => rfl⟩
  | drain =>
    right
    have hm : DrainMove cfg s s' := drainStep_move hstep
    refine ⟨(drain_keeps hm).published, fun t => ?_⟩
    cases hm with
    | syncNext hpc hsub => rw [(syncNext_frame _).threads]
    | syncLive hpc hsub hl => rw [(syncDecide_frame _ _).threads]
    | syncDead hpc hsub => rw [(syncDecide_frame _ _).threads]
    | recycle hpc => exact hnotify rfl t
    | _ => rfl
  | thread t =>
    have hm : ThreadMove cfg t s s' := threadStep_move hstep
    cases hm with
    | @publish r hpc hr => exact Or.inl ⟨t, r, rfl, hpc, hr, rfl⟩
    | formatSpin => exact Or.inr ⟨rfl, fun _ => rfl⟩
    | @recycle r hpc hr =>
      refine Or.inr ⟨rfl, fun t' => ?_⟩
      rw [goto_eq, setThread_threads]
      by_cases ht : t' = t
      · rw [ht, Function.update_self]
        exact hnotify rfl t
      · rw [Function.update_of_ne ht]
        exact hnotify rfl t'
    | _ => exact Or.inr ⟨rfl, hgoto rfl rfl⟩

/-- The history of registrations only grows. -/
theorem step_registered {a : Action} (hstep : step cfg s a = some s') {r : Nat}
    (hr : r ∈ s.registered) : r ∈ s'.registered := by
  cases a with
  | log t total =>
    obtain ⟨-, pc, -, rfl⟩ := log_inv hstep
    exact hr
  | exit t =>
    obtain ⟨-, ⟨r₀, -, rfl⟩ | ⟨-, rfl⟩⟩ := exit_inv hstep
    · exact hr
    · exact hr
  | thread t =>
    have hm : ThreadMove cfg t s s' := threadStep_move hstep
    cases hm with
    | register hpc hl => exact List.mem_append_left _ hr
    | _ => exact hr
  | wake t =>
    obtain ⟨-, rfl⟩ := wake_inv hstep
    exact hr
  | drain => exact (drain_keeps (drainStep_move hstep)).registered ▸ hr
  | guard =>
    have hm : GuardMove s s' := guardStep_move hstep
    cases hm <;> exact hr

/-- The publications of thread `t`, in order. -/
def publishedBy (s : Sys) (t : Nat) : List Rec := s.published.filter (·.thread = t)

/-- Each thread's publications carry `0, 1, 2, …`. -/
def Numbered (s : Sys) : Prop :=
  ∀ t, (s.publishedBy t).map Rec.seq = List.range (s.threads t).seq

theorem init_numbered : Numbered (Sys.init cfg) := fun _ => rfl

theorem publishedBy_publish (s : Sys) (t r t' : Nat) :
    (publish t r s).publishedBy t'
      = s.publishedBy t' ++ if t = t' then [⟨t, (s.threads t).seq, r, (s.threads t).total⟩]
          else [] := by
  unfold publishedBy
  rw [show (publish t r s).published
    = s.published ++ [⟨t, (s.threads t).seq, r, (s.threads t).total⟩] from rfl,
    List.filter_append, List.filter_singleton]
  by_cases ht : t = t' <;> simp [ht]

theorem step_numbered {a : Action} (h : Numbered s) (hstep : step cfg s a = some s') :
    Numbered s' := by
  intro t'
  rcases step_publishes hstep with ⟨t, r, rfl, hpc, hr, rfl⟩ | ⟨hpub, hseq⟩
  · rw [publishedBy_publish, List.map_append, h t']
    have hth : (publish t r s).threads t'
        = Function.update s.threads t
            { s.threads t with pc := .idle, seq := (s.threads t).seq + 1 } t' := rfl
    rw [hth]
    by_cases ht : t = t'
    · subst ht
      rw [Function.update_self, if_pos rfl, List.range_succ]
      rfl
    · rw [Function.update_of_ne (Ne.symm ht), if_neg ht]
      exact List.append_nil _
  · rw [hseq t', ← h t']
    unfold publishedBy
    rw [hpub]

/-- No record is published twice. -/
theorem Numbered.nodup (h : Numbered s) : s.published.Nodup := by
  refine nodup_of_classes Rec.thread fun t => ?_
  have hmap : ((s.publishedBy t).map Rec.seq).Nodup := by
    rw [h t]
    exact List.nodup_range
  exact List.Nodup.of_map _ hmap

end Sys

end Ticklog
