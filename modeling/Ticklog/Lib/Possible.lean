import Mathlib.Order.WellFounded
import Ticklog.Lib.Machine

/-!
# Possibility

`m.Can ok P s`: a run from `s` whose steps satisfy `ok` leads to a state with `P`. An invariant
speaks of every guarded run, a possibility of one: nothing is promised to happen, but it is
never too late for it. The rules:

* `Can.now`, `Can.step`, `Can.after`, `Can.bind` — build the run up;
* `Can.ranked` — a run that lowers a well-founded rank, or reaches the goal, can be continued
  to the goal.
-/

namespace Ticklog.Lib

universe u v w

namespace Machine

variable {σ : Type u} {α : Type v} {m : Machine σ α} {ok : σ → α → Prop} {P Q I : σ → Prop}

/-- Some guarded run from `s` ends in a state with `P`. -/
def Can (m : Machine σ α) (ok : σ → α → Prop) (P : σ → Prop) (s : σ) : Prop :=
  ∃ s', m.Runs ok s s' ∧ P s'

namespace Can

variable {s s' : σ}

theorem now (h : P s) : m.Can ok P s := ⟨s, .refl s, h⟩

/-- What is possible later is possible now. -/
theorem after (hrun : m.Runs ok s s') (h : m.Can ok P s') : m.Can ok P s := by
  obtain ⟨s₂, hrun', hP⟩ := h
  exact ⟨s₂, hrun.trans hrun', hP⟩

theorem step {a : α} (hok : ok s a) (hstep : m.step s a = some s') (h : m.Can ok P s') :
    m.Can ok P s :=
  after (Runs.single hok hstep) h

theorem bind (h : m.Can ok Q s) (hnext : ∀ s', Q s' → m.Can ok P s') : m.Can ok P s := by
  obtain ⟨s₁, hrun, hQ⟩ := h
  exact after hrun (hnext s₁ hQ)

theorem mono (h : m.Can ok Q s) (himp : ∀ s', Q s' → P s') : m.Can ok P s :=
  h.bind fun s' hQ => now (himp s' hQ)

/-- **The rank rule**: where the goal is not reached yet, some run lowers the rank. -/
theorem ranked {β : Type w} [LT β] [WellFoundedLT β] (rank : σ → β)
    (h : ∀ s, I s → m.Can ok (fun s' => P s' ∨ I s' ∧ rank s' < rank s) s) (hs : I s) :
    m.Can ok P s := by
  generalize hb : rank s = b
  induction b using WellFoundedLT.induction generalizing s with
  | ind b ih =>
    subst hb
    refine (h s hs).bind fun s' hs' => ?_
    rcases hs' with hP | ⟨hI, hlt⟩
    · exact now hP
    · exact ih _ hlt hI rfl

end Can

end Machine

end Ticklog.Lib
