import Ticklog.Level

/-!
# Sink trees (`src/sink/mod.rs`)

Concrete sinks are leaves, with the `max_level` they report and whether they take raw
records; `WithLevel` and `FanOut` are the adapters. A node is named by its address, the
child numbers from the root. `accept` keeps the log of every call, in order: what a leaf
returns may depend on all of it (`fails`), and a fan-out goes on after an error.

`handed` is the same dispatch without leaves that can fail; `accept_log` says that errors
change nothing about who is handed what.
-/

namespace Ticklog

/-- One call of a sink: the node, the bytes, through `accept_raw` or `accept`. -/
structure Handing where
  node : List Nat
  payload : List UInt8
  raw : Bool
  level : Level
deriving DecidableEq, Repr

inductive Sink where
  /-- A concrete sink. -/
  | leaf (level : Level) (raw : Bool)
  | withLevel (sink : Sink) (level : Level)
  | fanOut (entries : List Sink)

namespace Sink

/-- `LogSink::max_level`. -/
def maxLevel : Sink → Level
  | .leaf level _ => level
  | .withLevel _ level => level
  | .fanOut _ => .trace

/-- `raw_sink().is_some()`. -/
def isRaw : Sink → Bool
  | .leaf _ raw => raw
  | .withLevel sink _ => sink.isRaw
  | .fanOut _ => false

mutual

/-- `LogSink::accept` at `node`: the calls so far with those it makes, and whether it
returns `Ok`. -/
def accept (fails : List Handing → Bool) (line : List UInt8) (level : Level) :
    Sink → List Nat → List Handing → List Handing × Bool
  | .leaf _ _, node, log =>
    let log' := log ++ [⟨node, line, false, level⟩]
    (log', !fails log')
  | .withLevel sink _, node, log =>
    accept fails line level sink (node ++ [0]) (log ++ [⟨node, line, false, level⟩])
  | .fanOut entries, node, log =>
    (dispatch fails line level entries 0 node (log ++ [⟨node, line, false, level⟩]), true)

/-- The loop of `FanOut::accept` from entry `i` on; an entry's error is printed and
dropped. -/
def dispatch (fails : List Handing → Bool) (line : List UInt8) (level : Level) :
    List Sink → Nat → List Nat → List Handing → List Handing
  | [], _, _, log => log
  | entry :: rest, i, node, log =>
    let log' := if level ≤ entry.maxLevel
      then (accept fails line level entry (node ++ [i]) log).1 else log
    dispatch fails line level rest (i + 1) node log'

end

/-- `accept_raw` on `raw_sink()`: an adapter's raw side is its inner sink's, so the record
passes every node down to the leaf. -/
def acceptRaw (record : List UInt8) (level : Level) :
    Sink → List Nat → List Handing → List Handing
  | .leaf _ _, node, log => log ++ [⟨node, record, true, level⟩]
  | .withLevel sink _, node, log =>
    acceptRaw record level sink (node ++ [0]) (log ++ [⟨node, record, true, level⟩])
  | .fanOut _, _, log => log

/-! ## Who is handed what -/

mutual

/-- The calls one `accept` makes. -/
def handed (line : List UInt8) (level : Level) : Sink → List Nat → List Handing
  | .leaf _ _, node => [⟨node, line, false, level⟩]
  | .withLevel sink _, node => ⟨node, line, false, level⟩ :: handed line level sink (node ++ [0])
  | .fanOut entries, node =>
    ⟨node, line, false, level⟩ :: handedEach line level entries 0 node

def handedEach (line : List UInt8) (level : Level) : List Sink → Nat → List Nat → List Handing
  | [], _, _ => []
  | entry :: rest, i, node =>
    (if level ≤ entry.maxLevel then handed line level entry (node ++ [i]) else [])
      ++ handedEach line level rest (i + 1) node

end

mutual

/-- Whatever the leaves return, the calls are the same. -/
theorem accept_log (fails : List Handing → Bool) (line : List UInt8) (level : Level) :
    ∀ (s : Sink) (node : List Nat) (log : List Handing),
      (accept fails line level s node log).1 = log ++ handed line level s node
  | .leaf _ _, _, _ => rfl
  | .withLevel sink _, node, log => by
    rw [accept, accept_log fails line level sink, handed, List.append_assoc]
    rfl
  | .fanOut entries, node, log => by
    rw [accept, dispatch_log fails line level entries, handed, List.append_assoc]
    rfl

theorem dispatch_log (fails : List Handing → Bool) (line : List UInt8) (level : Level) :
    ∀ (entries : List Sink) (i : Nat) (node : List Nat) (log : List Handing),
      dispatch fails line level entries i node log = log ++ handedEach line level entries i node
  | [], _, _, _ => (List.append_nil _).symm
  | entry :: rest, i, node, log => by
    rw [dispatch, dispatch_log fails line level rest, handedEach]
    split
    · rw [accept_log fails line level entry, List.append_assoc]
    · rw [List.nil_append]

end

/-- The calls one `accept_raw` makes. -/
def handedRaw (record : List UInt8) (level : Level) : Sink → List Nat → List Handing
  | .leaf _ _, node => [⟨node, record, true, level⟩]
  | .withLevel sink _, node =>
    ⟨node, record, true, level⟩ :: handedRaw record level sink (node ++ [0])
  | .fanOut _, _ => []

theorem acceptRaw_log (record : List UInt8) (level : Level) :
    ∀ (s : Sink) (node : List Nat) (log : List Handing),
      acceptRaw record level s node log = log ++ handedRaw record level s node
  | .leaf _ _, _, _ => rfl
  | .withLevel sink _, node, log => by
    rw [acceptRaw, acceptRaw_log record level sink, handedRaw, List.append_assoc]
    rfl
  | .fanOut _, _, _ => (List.append_nil _).symm

/-! ## Addresses -/

mutual

/-- Calls stay inside the subtree. -/
theorem handed_node {line : List UInt8} {level : Level} :
    ∀ (s : Sink) (node : List Nat) {h : Handing}, h ∈ handed line level s node →
      node <+: h.node ∧ h.level = level
  | .leaf _ _, node, h, hh => by
    rw [handed, List.mem_singleton] at hh
    exact hh ▸ ⟨List.prefix_rfl, rfl⟩
  | .withLevel sink _, node, h, hh => by
    rw [handed, List.mem_cons] at hh
    rcases hh with rfl | hh
    · exact ⟨List.prefix_rfl, rfl⟩
    · obtain ⟨hp, hl⟩ := handed_node sink (node ++ [0]) hh
      exact ⟨(List.prefix_append node [0]).trans hp, hl⟩
  | .fanOut entries, node, h, hh => by
    rw [handed, List.mem_cons] at hh
    rcases hh with rfl | hh
    · exact ⟨List.prefix_rfl, rfl⟩
    · obtain ⟨j, -, hp, hl⟩ := handedEach_node entries 0 node hh
      exact ⟨(List.prefix_append node [j]).trans hp, hl⟩

theorem handedEach_node {line : List UInt8} {level : Level} :
    ∀ (entries : List Sink) (i : Nat) (node : List Nat) {h : Handing},
      h ∈ handedEach line level entries i node →
      ∃ j, i ≤ j ∧ node ++ [j] <+: h.node ∧ h.level = level
  | [], _, _, h, hh => by
    rw [handedEach] at hh
    cases hh
  | entry :: rest, i, node, h, hh => by
    rw [handedEach, List.mem_append] at hh
    rcases hh with hh | hh
    · split at hh
      · obtain ⟨hp, hl⟩ := handed_node entry (node ++ [i]) hh
        exact ⟨i, Nat.le_refl i, hp, hl⟩
      · cases hh
    · obtain ⟨j, hj, hp⟩ := handedEach_node rest (i + 1) node hh
      exact ⟨j, Nat.le_of_succ_le hj, hp⟩

end

/-- Two children's subtrees have no address in common. -/
theorem child_unique {node a : List Nat} {i j : Nat} (hi : node ++ [i] <+: a)
    (hj : node ++ [j] <+: a) : i = j := by
  have h := List.prefix_of_prefix_length_le hi hj (by simp)
  have := (List.prefix_append_right_inj node).mp h
  simpa using this

/-- A child's address is not its parent's. -/
theorem child_ne {node a : List Nat} {i : Nat} (h : node ++ [i] <+: a) : a ≠ node := by
  rintro rfl
  have := h.length_le
  simp at this

/-! ## Gates and leaves -/

mutual

/-- The direct children of fan-outs, with the level each reports. -/
def gates : Sink → List Nat → List (List Nat × Level)
  | .leaf _ _, _ => []
  | .withLevel sink _, node => gates sink (node ++ [0])
  | .fanOut entries, node => gatesEach entries 0 node

def gatesEach : List Sink → Nat → List Nat → List (List Nat × Level)
  | [], _, _ => []
  | entry :: rest, i, node =>
    (node ++ [i], entry.maxLevel) :: gates entry (node ++ [i]) ++ gatesEach rest (i + 1) node

end

mutual

/-- The leaves, each with the levels of the fan-out children on the way to it. -/
def leaves : Sink → List Nat → List (List Nat × List Level)
  | .leaf _ _, node => [(node, [])]
  | .withLevel sink _, node => leaves sink (node ++ [0])
  | .fanOut entries, node => leavesEach entries 0 node

def leavesEach : List Sink → Nat → List Nat → List (List Nat × List Level)
  | [], _, _ => []
  | entry :: rest, i, node =>
    (leaves entry (node ++ [i])).map (fun leaf => (leaf.1, entry.maxLevel :: leaf.2))
      ++ leavesEach rest (i + 1) node

end

mutual

theorem gates_node : ∀ (s : Sink) (node : List Nat) {g : List Nat × Level},
    g ∈ gates s node → ∃ j, node ++ [j] <+: g.1
  | .leaf _ _, _, _, hg => by
    rw [gates] at hg
    cases hg
  | .withLevel sink _, node, g, hg => by
    rw [gates] at hg
    obtain ⟨j, hj⟩ := gates_node sink (node ++ [0]) hg
    exact ⟨0, (List.prefix_append _ _).trans hj⟩
  | .fanOut entries, node, g, hg => by
    rw [gates] at hg
    obtain ⟨j, -, hj⟩ := gatesEach_node entries 0 node hg
    exact ⟨j, hj⟩

theorem gatesEach_node : ∀ (entries : List Sink) (i : Nat) (node : List Nat)
    {g : List Nat × Level}, g ∈ gatesEach entries i node → ∃ j, i ≤ j ∧ node ++ [j] <+: g.1
  | [], _, _, _, hg => by
    rw [gatesEach] at hg
    cases hg
  | entry :: rest, i, node, g, hg => by
    rw [gatesEach, List.mem_append, List.mem_cons] at hg
    rcases hg with (rfl | hg) | hg
    · exact ⟨i, Nat.le_refl i, List.prefix_rfl⟩
    · obtain ⟨j, hj⟩ := gates_node entry (node ++ [i]) hg
      exact ⟨i, Nat.le_refl i, (List.prefix_append _ _).trans hj⟩
    · obtain ⟨j, hij, hj⟩ := gatesEach_node rest (i + 1) node hg
      exact ⟨j, Nat.le_of_succ_le hij, hj⟩

end

mutual

theorem leaves_node : ∀ (s : Sink) (node : List Nat) {f : List Nat × List Level},
    f ∈ leaves s node → node <+: f.1
  | .leaf _ _, node, f, hf => by
    rw [leaves, List.mem_singleton] at hf
    exact hf ▸ List.prefix_rfl
  | .withLevel sink _, node, f, hf => by
    rw [leaves] at hf
    exact (List.prefix_append _ _).trans (leaves_node sink (node ++ [0]) hf)
  | .fanOut entries, node, f, hf => by
    rw [leaves] at hf
    obtain ⟨j, -, hj⟩ := leavesEach_node entries 0 node hf
    exact (List.prefix_append _ _).trans hj

theorem leavesEach_node : ∀ (entries : List Sink) (i : Nat) (node : List Nat)
    {f : List Nat × List Level}, f ∈ leavesEach entries i node →
      ∃ j, i ≤ j ∧ node ++ [j] <+: f.1
  | [], _, _, _, hf => by
    rw [leavesEach] at hf
    cases hf
  | entry :: rest, i, node, f, hf => by
    rw [leavesEach, List.mem_append, List.mem_map] at hf
    rcases hf with ⟨f', hf', rfl⟩ | hf
    · have hp := leaves_node entry (node ++ [i]) hf'
      exact ⟨i, Nat.le_refl i, hp⟩
    · obtain ⟨j, hij, hj⟩ := leavesEach_node rest (i + 1) node hf
      exact ⟨j, Nat.le_of_succ_le hij, hj⟩

end

/-! ## What the fan-outs guarantee -/

mutual

/-- Below a fan-out nobody is handed a record above the level it reports. -/
theorem handed_gate {line : List UInt8} {level : Level} :
    ∀ (s : Sink) (node : List Nat) {g : List Nat × Level} {h : Handing}, g ∈ gates s node →
      h ∈ handed line level s node → h.node = g.1 → level ≤ g.2
  | .leaf _ _, _, _, _, hg, _, _ => by
    rw [gates] at hg
    cases hg
  | .withLevel sink _, node, g, h, hg, hh, heq => by
    rw [gates] at hg
    rw [handed, List.mem_cons] at hh
    rcases hh with rfl | hh
    · obtain ⟨j, hj⟩ := gates_node sink (node ++ [0]) hg
      exact absurd heq.symm (child_ne ((List.prefix_append _ _).trans hj))
    · exact handed_gate sink (node ++ [0]) hg hh heq
  | .fanOut entries, node, g, h, hg, hh, heq => by
    rw [gates] at hg
    rw [handed, List.mem_cons] at hh
    rcases hh with rfl | hh
    · obtain ⟨j, -, hj⟩ := gatesEach_node entries 0 node hg
      exact absurd heq.symm (child_ne hj)
    · exact handedEach_gate entries 0 node hg hh heq

theorem handedEach_gate {line : List UInt8} {level : Level} :
    ∀ (entries : List Sink) (i : Nat) (node : List Nat) {g : List Nat × Level} {h : Handing},
      g ∈ gatesEach entries i node → h ∈ handedEach line level entries i node →
      h.node = g.1 → level ≤ g.2
  | [], _, _, _, _, hg, _, _ => by
    rw [gatesEach] at hg
    cases hg
  | entry :: rest, i, node, g, h, hg, hh, heq => by
    rw [handedEach, List.mem_append] at hh
    have hrest : ∀ {g' : List Nat × Level}, g' ∈ gatesEach rest (i + 1) node →
        ¬ node ++ [i] <+: g'.1 := by
      intro g' hg' hp
      obtain ⟨j, hij, hj⟩ := gatesEach_node rest (i + 1) node hg'
      have := child_unique hp hj
      omega
    rw [gatesEach, List.mem_append] at hg
    rcases hh with hh | hh
    · split at hh
      next hle =>
        -- the entry was called: its own level was checked, its children by induction
        rcases hg with hg | hg
        · rcases List.mem_cons.mp hg with rfl | hg
          · exact hle
          · exact handed_gate entry (node ++ [i]) hg hh heq
        · exact absurd (heq ▸ (handed_node entry (node ++ [i]) hh).1) (hrest hg)
      next => cases hh
    · obtain ⟨j, hij, hj, -⟩ := handedEach_node rest (i + 1) node hh
      rcases hg with hg | hg
      · have hp : node ++ [i] <+: g.1 := by
          rcases List.mem_cons.mp hg with rfl | hg
          · exact List.prefix_rfl
          · obtain ⟨k, hk⟩ := gates_node entry (node ++ [i]) hg
            exact (List.prefix_append _ _).trans hk
        have := child_unique hp (heq ▸ hj)
        omega
      · exact handedEach_gate rest (i + 1) node hg hh heq

end

/-- The levels on the way to a leaf all allow `level`. -/
def allows (gs : List Level) (level : Level) : Bool := gs.all fun m => decide (level ≤ m)

mutual

/-- A leaf is handed a record exactly when the fan-outs on the way allow it, once. -/
theorem handed_leaf {line : List UInt8} {level : Level} :
    ∀ (s : Sink) (node : List Nat) {f : List Nat × List Level}, f ∈ leaves s node →
      (handed line level s node).filter (·.node = f.1)
        = if allows f.2 level then [⟨f.1, line, false, level⟩] else []
  | .leaf _ _, node, f, hf => by
    rw [leaves, List.mem_singleton] at hf
    subst hf
    simp [handed, allows]
  | .withLevel sink _, node, f, hf => by
    rw [leaves] at hf
    have hne := child_ne (leaves_node sink (node ++ [0]) hf)
    rw [handed, List.filter_cons_of_neg (by simpa using hne.symm)]
    exact handed_leaf sink (node ++ [0]) hf
  | .fanOut entries, node, f, hf => by
    rw [leaves] at hf
    obtain ⟨j, -, hj⟩ := leavesEach_node entries 0 node hf
    have hne := child_ne hj
    rw [handed, List.filter_cons_of_neg (by simpa using hne.symm)]
    exact handedEach_leaf entries 0 node hf

theorem handedEach_leaf {line : List UInt8} {level : Level} :
    ∀ (entries : List Sink) (i : Nat) (node : List Nat) {f : List Nat × List Level},
      f ∈ leavesEach entries i node →
      (handedEach line level entries i node).filter (·.node = f.1)
        = if allows f.2 level then [⟨f.1, line, false, level⟩] else []
  | [], _, _, _, hf => by
    rw [leavesEach] at hf
    cases hf
  | entry :: rest, i, node, f, hf => by
    rw [leavesEach, List.mem_append, List.mem_map] at hf
    rw [handedEach, List.filter_append]
    rcases hf with ⟨f', hf', rfl⟩ | hf
    · -- the leaf is below this entry: the later entries do not reach it
      have hp := leaves_node entry (node ++ [i]) hf'
      have hrest : (handedEach line level rest (i + 1) node).filter (·.node = f'.1) = [] := by
        refine List.filter_eq_nil_iff.mpr fun h hh => ?_
        obtain ⟨j, hij, hj, -⟩ := handedEach_node rest (i + 1) node hh
        intro heq
        have heq : h.node = f'.1 := by simpa using heq
        have := child_unique hp (heq ▸ hj)
        omega
      rw [hrest, List.append_nil]
      by_cases hle : level ≤ entry.maxLevel
      · rw [if_pos hle, handed_leaf entry (node ++ [i]) hf']
        simp [allows, hle]
      · rw [if_neg hle]
        simp [allows, hle]
    · obtain ⟨j, hij, hj⟩ := leavesEach_node rest (i + 1) node hf
      have hentry : (if level ≤ entry.maxLevel then handed line level entry (node ++ [i])
          else []).filter (·.node = f.1) = [] := by
        refine List.filter_eq_nil_iff.mpr fun h hh => ?_
        split at hh
        · have hp := (handed_node entry (node ++ [i]) hh).1
          intro heq
          have heq : h.node = f.1 := by simpa using heq
          have := child_unique (heq ▸ hp) hj
          omega
        · cases hh
      rw [hentry, List.nil_append]
      exact handedEach_leaf rest (i + 1) node hf

end

/-! ## The raw side -/

theorem handedRaw_gate {record : List UInt8} {level : Level} :
    ∀ (s : Sink) (node : List Nat) {g : List Nat × Level} {h : Handing}, g ∈ gates s node →
      h ∈ handedRaw record level s node → h.node = g.1 → level ≤ g.2
  | .leaf _ _, _, _, _, hg, _, _ => by
    rw [gates] at hg
    cases hg
  | .withLevel sink _, node, g, h, hg, hh, heq => by
    rw [gates] at hg
    rw [handedRaw, List.mem_cons] at hh
    rcases hh with rfl | hh
    · obtain ⟨j, hj⟩ := gates_node sink (node ++ [0]) hg
      exact absurd heq.symm (child_ne ((List.prefix_append _ _).trans hj))
    · exact handedRaw_gate sink (node ++ [0]) hg hh heq
  | .fanOut _, _, _, _, _, hh, _ => by
    rw [handedRaw] at hh
    cases hh

theorem handedRaw_level {record : List UInt8} {level : Level} :
    ∀ (s : Sink) (node : List Nat) {h : Handing}, h ∈ handedRaw record level s node →
      h.level = level
  | .leaf _ _, _, _, hh => by
    rw [handedRaw, List.mem_singleton] at hh
    rw [hh]
  | .withLevel sink _, node, _, hh => by
    rw [handedRaw, List.mem_cons] at hh
    rcases hh with rfl | hh
    · rfl
    · exact handedRaw_level sink (node ++ [0]) hh
  | .fanOut _, _, _, hh => by
    rw [handedRaw] at hh
    cases hh

/-- A raw sink is a chain of adapters over one leaf. -/
theorem handedRaw_leaf {record : List UInt8} {level : Level} :
    ∀ (s : Sink) (node : List Nat) {f : List Nat × List Level}, s.isRaw = true →
      f ∈ leaves s node →
      f.2 = [] ∧ (handedRaw record level s node).filter (·.node = f.1)
        = [⟨f.1, record, true, level⟩]
  | .leaf _ _, node, f, _, hf => by
    rw [leaves, List.mem_singleton] at hf
    subst hf
    simp [handedRaw]
  | .withLevel sink _, node, f, hr, hf => by
    rw [leaves] at hf
    have hne := child_ne (leaves_node sink (node ++ [0]) hf)
    rw [handedRaw, List.filter_cons_of_neg (by simpa using hne.symm)]
    exact handedRaw_leaf sink (node ++ [0]) hr hf
  | .fanOut _, _, _, hr, _ => by
    rw [isRaw] at hr
    cases hr

end Sink

end Ticklog
