import Ticklog.Lib.Channel
import Ticklog.Lib.Queues
import Ticklog.Rtrb.Exit

/-!
# The other byte-stream backends (`fifo-backend`)

`backend-ringbuf`, `backend-ringbuffer` and `backend-triple-buffer` share the interface of a ring:
rounds of `reserve`, a `commit` of the whole record behind each grant, `pop_available` for the
drain, and `live`. Each is a `Channel` here, with the accesses its own locks allow in between, and
what a pass of the drain makes of the bytes it popped is `Rtrb.pass`.
-/

namespace Ticklog

open Lib

namespace Backends

universe u w

variable {σ : Type u} {ι : Type w}

/-- One round of `reserve` on a queue that holds `occupied` bytes, in the backends that queue
bytes. -/
def reserveRound (occupied capacity totalSize : Nat) (live : Bool) (policy : Backpressure) :
    Rtrb.Reserve :=
  if Rtrb.saturatingAdd occupied totalSize < capacity then .reserved
  else
    match policy with
    | .drop => .refused
    | .nanoLog | .quill | .block => if live then .waits else .refused

theorem reserveRound_reserved {occupied capacity totalSize : Nat} {live : Bool}
    {policy : Backpressure} (hcap : capacity < wordSize) :
    reserveRound occupied capacity totalSize live policy = .reserved ↔
      occupied + totalSize < capacity := by
  have hroom : Rtrb.saturatingAdd occupied totalSize < capacity ↔
      occupied + totalSize < capacity := by
    unfold Rtrb.saturatingAdd
    omega
  unfold reserveRound
  by_cases h : Rtrb.saturatingAdd occupied totalSize < capacity
  · rw [if_pos h]
    exact iff_of_true rfl (hroom.mp h)
  · rw [if_neg h]
    refine iff_of_false ?_ (fun hfits => h (hroom.mpr hfits))
    cases policy with
    | drop => exact nofun
    | block | nanoLog | quill =>
      show ¬ (if live = true then Rtrb.Reserve.waits else .refused) = .reserved
      split <;> exact nofun

/-- The producer commits records. -/
def CommitsRecords (_ : Channel.Run σ ι UInt8) : Channel.Action Backpressure UInt8 → Prop
  | .push bytes => Fifo.IsRecord bytes
  | .ask _ _ | .close | .pull => True

instance (s : Channel.Run σ ι UInt8) (a : Channel.Action Backpressure UInt8) :
    Decidable (CommitsRecords s a) :=
  match a with
  | .push bytes => inferInstanceAs (Decidable (Fifo.IsRecord bytes))
  | .ask _ _ | .close | .pull => inferInstanceAs (Decidable True)

/-- The records the drain has delivered of the bytes it popped. -/
def delivered (s : Channel.Run σ ι UInt8) : List (List UInt8) := s.pulled.flatMap Rtrb.pass

section

variable {C : Channel σ Backpressure ι UInt8} {L : Lossless C} {s : Channel.Run σ ι UInt8}

theorem pushed_records {c : σ} {i : ι}
    (h : (Channel.machine C).Runs CommitsRecords (Channel.Run.start c i) s) :
    ∀ record ∈ s.pushed, Fifo.IsRecord record := by
  refine h.invariant (I := fun s => ∀ record ∈ s.pushed, Fifo.IsRecord record) ?_ nofun
  intro s a s' hrecords hok hstep record hr
  cases a with
  | ask n k =>
    change Channel.Run.step C s (.ask n k) = some s' at hstep
    unfold Channel.Run.step at hstep
    dsimp only at hstep
    repeat' split at hstep
    all_goals cases hstep
    all_goals exact hrecords record hr
  | push payload =>
    change Channel.Run.step C s (.push payload) = some s' at hstep
    unfold Channel.Run.step at hstep
    dsimp only at hstep
    split at hstep
    next =>
      cases hstep
      rcases List.mem_append.mp hr with hr | hr
      · exact hrecords record hr
      · rw [List.mem_singleton.mp hr]
        exact hok
    next => cases hstep
  | close =>
    cases hstep
    exact hrecords record hr
  | pull =>
    cases hstep
    exact hrecords record hr

/-- The passes deliver the records whose bytes they popped. -/
theorem delivered_groups {groups : List (List (List UInt8))} {ps : List (List UInt8)}
    (h : L.Carried s groups ps) (hrecords : ∀ record ∈ s.pushed, Fifo.IsRecord record) :
    delivered s = groups.flatten := by
  have hin : ∀ group ∈ groups, ∀ record ∈ group, Fifo.IsRecord record := by
    intro group hg record hr
    apply hrecords record
    rw [h.pushed]
    exact List.mem_append_left _ (List.mem_flatten.mpr ⟨group, hg, hr⟩)
  have hpass : ∀ {groups : List (List (List UInt8))},
      (∀ group ∈ groups, ∀ record ∈ group, Fifo.IsRecord record) →
      (groups.map List.flatten).flatMap Rtrb.pass = groups.flatten := by
    intro groups hin
    induction groups with
    | nil => rfl
    | cons group groups ih =>
      rw [List.map_cons, List.flatMap_cons, List.flatten_cons,
        Rtrb.pass_records (hin group List.mem_cons_self),
        ih fun group hg => hin group (List.mem_cons_of_mem _ hg)]
  unfold delivered
  rw [h.pulled]
  exact hpass hin

/-- **Nothing is lost on a lossless channel.** What was committed is what is delivered and what
the channel holds; when the producer has exited the drain's own accesses deliver the rest. -/
theorem delivers (L : Lossless C) {c : σ} {i : ι} (hstart : L.Holds c i [])
    (h : (Channel.machine C).Runs CommitsRecords (Channel.Run.start c i) s) :
    ∃ ps, L.Holds s.chan s.reader ps ∧ s.pushed = delivered s ++ ps ∧
      ∀ n, L.left (C.close s.chan) s.reader ≤ n →
        ∃ t, (Channel.machine C).run s (.close :: List.replicate n .pull) = some t ∧
          t.pushed = s.pushed ∧ delivered t = s.pushed := by
  have hrecords := pushed_records h
  have hpushes : ∀ (s : Channel.Run σ ι UInt8) (a : Channel.Action Backpressure UInt8),
      CommitsRecords s a → Channel.Pushes s a := by
    intro s a ha
    cases a with
    | push bytes => exact Fifo.IsRecord.ne_nil ha
    | ask n k => trivial
    | close => trivial
    | pull => trivial
  obtain ⟨groups, ps, hcarried⟩ := L.runs hpushes hstart h
  refine ⟨ps, hcarried.holds, ?_, ?_⟩
  · rw [delivered_groups hcarried hrecords]
    exact hcarried.pushed
  · intro n hn
    have hclosed : L.Carried { s with chan := C.close s.chan } groups ps :=
      ⟨hcarried.pulled, hcarried.pushed, L.close hcarried.holds,
        fun m hm => L.close_room (hcarried.room m hm)⟩
    obtain ⟨t, groups', hrun, hend, hpushed⟩ := L.pulls_drained hclosed hn
    refine ⟨t, Machine.run_cons rfl hrun, hpushed, ?_⟩
    have hall := hend.pushed
    rw [List.append_nil] at hall
    rw [delivered_groups hend (hpushed ▸ hrecords), ← hall]
    exact hpushed

end

end Backends

end Ticklog
