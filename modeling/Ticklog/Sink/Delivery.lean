import Ticklog.Sink.Tree

/-!
# The drain's deliveries to its sink (`src/drain.rs`)

`drain_ring_inner` hands each record to the sink, rendered through `accept` or as it is
through `accept_raw`; run by a helping producer it copies the payload to the shared queue,
which `poll_once` delivers later. All three sites call the root sink without asking for
its `max_level`: the fan-outs check their children, nobody checks the root.
-/

namespace Ticklog

/-- What the sink tree, the shared queue and the drain have seen. -/
structure Delivered where
  /-- Every call of a sink, in order. -/
  log : List Handing
  /-- The helper queue. -/
  lines : List (List UInt8 × Level)
  /-- The payloads the drain delivered, in order. -/
  given : List (List UInt8 × Level)

/-- A step of the drain or of a helper that moves a record. -/
inductive Delivery where
  /-- `drain_ring_inner` of the drain reaches this record. -/
  | inline (record : List UInt8)
  /-- `format_segment` of a helper reaches this record. -/
  | helper (record : List UInt8)
  /-- `poll_once` takes the queue and delivers it. -/
  | queue

namespace Delivered

variable (fails : List Handing → Bool) (render : List UInt8 → List UInt8) (root : Sink)

def empty : Delivered := ⟨[], [], []⟩

/-- One payload to the root sink, through `raw_sink` when it was probed raw. -/
def give (raw : Bool) (payload : List UInt8) (level : Level) (d : Delivered) : Delivered :=
  { d with
    log := if raw then root.acceptRaw payload level [] d.log
      else (root.accept fails payload level [] d.log).1
    given := d.given ++ [(payload, level)] }

/-- The delivery of `drain_ring_inner`: to the sink, or to the queue without one. -/
def deliverRecord (toSink raw : Bool) (record : List UInt8) (d : Delivered) : Delivered :=
  let level := levelOf record
  if raw then
    if toSink then give fails root true record level d
    else { d with lines := d.lines ++ [(record, level)] }
  else
    if toSink then give fails root false (render record) level d
    else { d with lines := d.lines ++ [(render record, level)] }

/-- The queue delivery of `poll_once`. -/
def deliverLines (raw : Bool) (collected : List (List UInt8 × Level)) (d : Delivered) :
    Delivered :=
  collected.foldl (fun d x => give fails root raw x.1 x.2 d) d

/-- The delivery sites; each probes the sink before it starts. -/
def step (d : Delivered) : Delivery → Delivered
  | .inline record => deliverRecord fails render root true root.isRaw record d
  | .helper record => deliverRecord fails render root false root.isRaw record d
  | .queue => deliverLines fails root root.isRaw d.lines { d with lines := [] }

def run (ds : List Delivery) : Delivered := ds.foldl (step fails render root) empty

/-! ## The log is what was given, dispatched -/

variable {fails render root}

/-- The calls one payload makes. -/
def calls (root : Sink) (x : List UInt8 × Level) : List Handing :=
  if root.isRaw then root.handedRaw x.1 x.2 [] else root.handed x.1 x.2 []

/-- The log, delivery by delivery. -/
def Logged (root : Sink) (d : Delivered) : Prop := d.log = d.given.flatMap (calls root)

theorem give_logged {payload : List UInt8} {level : Level} {d : Delivered}
    (h : Logged root d) : Logged root (give fails root root.isRaw payload level d) := by
  unfold Logged give at *
  rw [List.flatMap_append, List.flatMap_singleton, ← h]
  unfold calls
  split
  · exact Sink.acceptRaw_log _ _ _ _ _
  · exact Sink.accept_log _ _ _ _ _ _

theorem step_logged (x : Delivery) {d : Delivered} (h : Logged root d) :
    Logged root (step fails render root d x) := by
  cases x with
  | inline record =>
    simp only [step, deliverRecord, if_true]
    split
    next hr =>
      have hg : Logged root (give fails root root.isRaw record (levelOf record) d) := give_logged h
      rwa [hr] at hg
    next hr =>
      have hg : Logged root (give fails root root.isRaw (render record) (levelOf record) d) :=
        give_logged h
      rwa [Bool.eq_false_iff.mpr hr] at hg
  | helper record =>
    simp only [step, deliverRecord, Bool.false_eq_true, if_false]
    split <;> exact h
  | queue =>
    have hfold : ∀ (l : List (List UInt8 × Level)) (d : Delivered), Logged root d →
        Logged root (deliverLines fails root root.isRaw l d) := by
      intro l
      induction l with
      | nil => exact fun _ hd => hd
      | cons x rest ih => exact fun d hd => ih _ (give_logged hd)
    exact hfold _ _ h

theorem run_logged (ds : List Delivery) : Logged root (run fails render root ds) := by
  have hfold : ∀ (l : List Delivery) (d : Delivered), Logged root d →
      Logged root (l.foldl (step fails render root) d) := by
    intro l
    induction l with
    | nil => exact fun _ hd => hd
    | cons x rest ih => exact fun d hd => ih _ (step_logged x hd)
  exact hfold _ _ rfl

/-! ## The levels of what is delivered -/

/-- The levels of the records a sequence of steps delivers, in order; `queued` are those in
the helper queue. -/
def deliveredLevels : List Delivery → List Level → List Level
  | [], _ => []
  | .inline record :: ds, queued => levelOf record :: deliveredLevels ds queued
  | .helper record :: ds, queued => deliveredLevels ds (queued ++ [levelOf record])
  | .queue :: ds, queued => queued ++ deliveredLevels ds []

theorem deliverLines_given (raw : Bool) (l : List (List UInt8 × Level)) (d : Delivered) :
    (deliverLines fails root raw l d).given = d.given ++ l
      ∧ (deliverLines fails root raw l d).lines = d.lines := by
  induction l generalizing d with
  | nil => exact ⟨(List.append_nil _).symm, rfl⟩
  | cons x rest ih =>
    obtain ⟨hgiven, hlines⟩ := ih (give fails root raw x.1 x.2 d)
    refine ⟨?_, hlines⟩
    change (deliverLines fails root raw rest (give fails root raw x.1 x.2 d)).given = _
    rw [hgiven, give, List.append_assoc]
    rfl

theorem run_levels (ds : List Delivery) :
    (run fails render root ds).given.map Prod.snd = deliveredLevels ds [] := by
  have hfold : ∀ (ds : List Delivery) (d : Delivered),
      (ds.foldl (step fails render root) d).given.map Prod.snd
        = d.given.map Prod.snd ++ deliveredLevels ds (d.lines.map Prod.snd) := by
    intro ds
    induction ds with
    | nil =>
      intro d
      simp [deliveredLevels]
    | cons x ds ih =>
      intro d
      rw [List.foldl_cons, ih]
      cases x with
      | inline record =>
        simp only [step, deliverRecord, if_true]
        split <;> simp [give, deliveredLevels]
      | helper record =>
        simp only [step, deliverRecord, Bool.false_eq_true, if_false]
        split <;> simp [deliveredLevels]
      | queue =>
        have hqueue := @deliverLines_given fails root root.isRaw d.lines { d with lines := [] }
        obtain ⟨hgiven, hlines⟩ := hqueue
        simp only [step, hgiven, hlines, deliveredLevels, List.map_append, List.map_nil,
          List.append_assoc]
  exact (hfold ds empty).trans (by simp [empty])

/-! ## Whose level is honoured -/

/-- Nobody who has a level is handed a record above it, and every record that is allowed
on the whole way to a leaf reaches it, in order. -/
structure Honoured (root : Sink) (d : Delivered) : Prop where
  rootLevel : ∀ h ∈ d.log, h.node = [] → h.level ≤ root.maxLevel
  childLevel : ∀ g ∈ root.gates [], ∀ h ∈ d.log, h.node = g.1 → h.level ≤ g.2
  reaches : ∀ f ∈ root.leaves [],
    (d.log.filter fun h => h.node = f.1 ∧ h.level ≤ root.maxLevel ∧
        Sink.allows f.2 h.level = true).map (fun h => (h.payload, h.level))
      = d.given.filter fun x => x.2 ≤ root.maxLevel ∧ Sink.allows f.2 x.2 = true

theorem calls_gate {x : List UInt8 × Level} {g : List Nat × Level} {h : Handing}
    (hg : g ∈ root.gates []) (hh : h ∈ calls root x) (heq : h.node = g.1) : x.2 ≤ g.2 := by
  unfold calls at hh
  split at hh
  · exact Sink.handedRaw_gate root [] hg hh heq
  · exact Sink.handed_gate root [] hg hh heq

/-- One payload at one leaf. -/
theorem calls_leaf (x : List UInt8 × Level) {f : List Nat × List Level}
    (hf : f ∈ root.leaves []) :
    (calls root x).filter (·.node = f.1)
      = if Sink.allows f.2 x.2 then [⟨f.1, x.1, root.isRaw, x.2⟩] else [] := by
  unfold calls
  split
  next hr =>
    obtain ⟨hnil, hcalls⟩ : f.2 = [] ∧
        (root.handedRaw x.1 x.2 []).filter (·.node = f.1) = [⟨f.1, x.1, true, x.2⟩] :=
      Sink.handedRaw_leaf root [] hr hf
    rw [hcalls, hnil, hr]
    rfl
  next hr => rw [Sink.handed_leaf root [] hf, Bool.eq_false_iff.mpr hr]

/-- Every payload reaches the root. -/
theorem calls_root (root : Sink) (x : List UInt8 × Level) :
    ∃ h ∈ calls root x, h.node = [] ∧ h.level = x.2 := by
  cases root with
  | leaf level raw => cases raw <;> exact ⟨_, List.mem_singleton.mpr rfl, rfl, rfl⟩
  | withLevel sink level =>
    unfold calls
    split
    · exact ⟨_, List.mem_cons_self, rfl, rfl⟩
    · exact ⟨_, List.mem_cons_self, rfl, rfl⟩
  | fanOut entries => exact ⟨_, List.mem_cons_self, rfl, rfl⟩

theorem calls_level {x : List UInt8 × Level} {h : Handing} (hh : h ∈ calls root x) :
    h.level = x.2 := by
  unfold calls at hh
  split at hh
  · exact Sink.handedRaw_level root [] hh
  · exact (Sink.handed_node root [] hh).2

/-- What a leaf sees of one payload, among the levels it should. -/
theorem calls_reaches (x : List UInt8 × Level) {f : List Nat × List Level}
    (hf : f ∈ root.leaves []) :
    ((calls root x).filter fun h => h.node = f.1 ∧ h.level ≤ root.maxLevel ∧
        Sink.allows f.2 h.level = true).map (fun h => (h.payload, h.level))
      = [x].filter fun x => x.2 ≤ root.maxLevel ∧ Sink.allows f.2 x.2 = true := by
  have hsplit : ((calls root x).filter fun h => h.node = f.1 ∧ h.level ≤ root.maxLevel ∧
      Sink.allows f.2 h.level = true)
      = ((calls root x).filter (·.node = f.1)).filter fun h => h.level ≤ root.maxLevel ∧
          Sink.allows f.2 h.level = true := by
    rw [List.filter_filter]
    refine List.filter_congr fun h _ => ?_
    by_cases hn : h.node = f.1 <;> simp [hn]
  rw [hsplit, calls_leaf x hf]
  by_cases ha : Sink.allows f.2 x.2 = true
  · by_cases hm : x.2 ≤ root.maxLevel <;> simp [ha, hm]
  · simp [ha]

/-- **Levels are honoured exactly when nothing above the root's own is delivered.** For
every sink tree, whatever its leaves return, and every sequence of deliveries at the three
sites: no sink with a level of its own is handed more than it allows, and each leaf gets
in order what is allowed on the way to it, if and only if every record that comes to be
delivered is within the root sink's `max_level`. -/
theorem honoured_iff (fails : List Handing → Bool) (render : List UInt8 → List UInt8)
    (root : Sink) (ds : List Delivery) :
    Honoured root (run fails render root ds) ↔
      ∀ level ∈ deliveredLevels ds [], level ≤ root.maxLevel := by
  have hlog : (run fails render root ds).log
      = (run fails render root ds).given.flatMap (calls root) := run_logged ds
  have hfrom : ∀ h ∈ (run fails render root ds).log,
      ∃ x ∈ (run fails render root ds).given, h ∈ calls root x := by
    intro h hh
    rw [hlog] at hh
    exact List.mem_flatMap.mp hh
  have hlevels : (run fails render root ds).given.map Prod.snd = deliveredLevels ds [] :=
    run_levels ds
  rw [← hlevels]
  simp only [List.mem_map, forall_exists_index, and_imp, forall_apply_eq_imp_iff₂]
  constructor
  · intro h x hx
    obtain ⟨c, hc, hnode, hlevel⟩ := calls_root root x
    have hmem : c ∈ (run fails render root ds).log := by
      rw [hlog]
      exact List.mem_flatMap.mpr ⟨x, hx, hc⟩
    exact hlevel ▸ h.rootLevel c hmem hnode
  · intro hle
    refine ⟨?_, ?_, ?_⟩
    · intro h hh _
      obtain ⟨x, hx, hcall⟩ := hfrom h hh
      exact calls_level hcall ▸ hle x hx
    · intro g hg h hh heq
      obtain ⟨x, hx, hcall⟩ := hfrom h hh
      exact calls_level hcall ▸ calls_gate hg hcall heq
    · intro f hf
      rw [hlog]
      induction (run fails render root ds).given with
      | nil => rfl
      | cons x rest ih =>
        have hone := calls_reaches x hf
        rw [List.flatMap_cons, List.filter_append, List.map_append, hone, ih,
          ← List.filter_append]
        rfl

/-- A console limited to warnings, as the root sink, is handed an `info` record. -/
theorem root_level_ignored :
    ¬ Honoured (.withLevel (.leaf .trace false) .warn)
      (run (fun _ => false) id (.withLevel (.leaf .trace false) .warn)
        [.inline [2, 1, 25, 0, 3, 1, 0, 0, 0, 0, 0, 0, 0, 0, 0, 0, 0, 0, 0, 0, 0, 0, 0, 0, 0]]) := by
  intro h
  have hlevel := h.rootLevel
    ⟨[], [2, 1, 25, 0, 3, 1, 0, 0, 0, 0, 0, 0, 0, 0, 0, 0, 0, 0, 0, 0, 0, 0, 0, 0, 0], false, .info⟩
    (by decide) rfl
  exact absurd hlevel (by decide)

end Delivered

end Ticklog
