import Mathlib.Order.Nat
import Shading.Proofs.History.Invariant

/-!
# Identities over a history

Identities are handed out in increasing order, so those handed out so far are the ones below the
next. A history is followed call by call: a call other than a sweep keeps every node, a sweep keeps
the marked ones, and no call gives a node to an identity that was handed out before. What an
identity stands for is therefore fixed when it is handed out, until a sweep takes its node away for
good (`Pool.handles_stable`).
-/

namespace Shading.Pool

variable {pool before after : Pool} {id : NodeId} {call : Call} {session count made now : Nat}
  {calls : List Call}

/-- The pool that the first calls of a sequence leave. -/
def snapshot (session : Nat) (calls : List Call) (count : Nat) : Pool :=
  (empty session).afterCalls (calls.take count)

/-- Both queries answer that a node is not in the pool. -/
def Unknown (pool : Pool) (id : NodeId) : Prop :=
  pool.node id = .error (.unknownNode id) ∧ pool.typeOf id = .error (.unknownNode id)

/-- What an identity stands for in the history of a pool, when a given call has handed it out. -/
structure StableSince (session : Nat) (calls : List Call) (made : Nat) (id : NodeId) : Prop where
  /-- The identity was not handed out before. -/
  new : (snapshot session calls made).nextId ≤ id
  /-- The call has made its node. -/
  present : (snapshot session calls (made + 1)).contains id = true
  /-- Ever after, the answers are those of the beginning, or the node is not in the pool. -/
  answers : ∀ now > made,
    ((snapshot session calls now).node id = (snapshot session calls (made + 1)).node id ∧
      (snapshot session calls now).typeOf id = (snapshot session calls (made + 1)).typeOf id) ∨
    (snapshot session calls now).Unknown id
  /-- A node that is not in the pool any more never comes back. -/
  gone : ∀ now > made, (snapshot session calls now).Unknown id →
    ∀ later ≥ now, (snapshot session calls later).Unknown id
  /-- Only a sweep takes the node away. -/
  swept : ∀ now > made, ¬(snapshot session calls now).Unknown id →
    (snapshot session calls (now + 1)).Unknown id → calls[now]? = some .sweep

/-! ### Answers -/

/-- A node is unknown if the pool has no entry for it. -/
theorem unknown_iff : pool.Unknown id ↔ pool.entry? id = none := by
  constructor
  · rintro ⟨missing, -⟩
    cases found : pool.entry? id with
    | none => rfl
    | some entry => simp [Pool.node, node?, found] at missing
  · intro missing
    simp [Unknown, Pool.node, node?, typeOf, missing]

/-- A node is unknown if it is not in the pool. -/
theorem unknown_iff_contains : pool.Unknown id ↔ ¬pool.contains id = true := by
  rw [unknown_iff, contains, Option.not_isSome_iff_eq_none]

/-- Both queries answer alike about the same entry. -/
theorem answers_of_same_entry (same : after.entry? id = before.entry? id) :
    after.node id = before.node id ∧ after.typeOf id = before.typeOf id := by
  simp only [Pool.node, node?, typeOf, same, and_self]

/-- An identity that was handed out keeps its node or loses it. -/
theorem Persists.entry?_eq_or (persists : before.Persists after)
    (inside : id < before.slots.size) :
    after.entry? id = before.entry? id ∨ after.entry? id = none := by
  cases found : after.entry? id with
  | none => exact Or.inr rfl
  | some entry => exact Or.inl (persists.entry id inside entry found).symm

/-- An identity that was handed out and is unknown stays unknown. -/
theorem Persists.unknown (persists : before.Persists after) (inside : id < before.slots.size)
    (unknown : before.Unknown id) : after.Unknown id := by
  rw [unknown_iff] at unknown ⊢
  rcases persists.entry?_eq_or inside with same | missing
  · rw [same, unknown]
  · exact missing

/-! ### One call -/

/-- A node stays in the pool unless the call is a sweep that finds it unmarked. -/
theorem WellFormed.contains_afterCall_iff (wf : pool.WellFormed)
    (present : pool.contains id = true) (call : Call) :
    (pool.afterCall call).contains id = true ↔ (call = .sweep → id ∈ pool.marked) := by
  by_cases isSweep : call = .sweep
  · subst isSweep
    have left : (pool.afterCall .sweep).contains id = (Pool.entry? pool.swept id).isSome := rfl
    rw [left, entry?_swept]
    by_cases marked : id ∈ pool.marked
    · rw [if_pos marked]
      exact ⟨fun _ _ => marked, fun _ => present⟩
    · rw [if_neg marked]
      exact ⟨nofun, fun kept => absurd (kept rfl) marked⟩
  · refine ⟨fun _ sweeps => absurd sweeps isSweep, fun _ => ?_⟩
    exact (wf.extends_afterCall isSweep).2.contains present

/-- A call that hands out an identity makes its node. -/
theorem WellFormed.contains_of_new (wf : pool.WellFormed) (new : pool.nextId ≤ id)
    (handedOut : id < (pool.afterCall call).nextId) : (pool.afterCall call).contains id = true := by
  by_cases isSweep : call = .sweep
  · subst isSweep
    have sameSize : (pool.afterCall .sweep).nextId = pool.nextId :=
      Array.size_mapIdx
    rw [sameSize] at handedOut
    exact absurd handedOut (Nat.not_lt.mpr new)
  · exact (wf.extends_afterCall isSweep).2.filled id new handedOut

/-! ### Histories -/

/-- Every pool in a history is well-formed. -/
theorem wellFormed_snapshot (session : Nat) (calls : List Call) (count : Nat) :
    (snapshot session calls count).WellFormed :=
  ((wellFormed_empty session).afterCalls _).1

/-- The next snapshot is the one that the next call leaves. -/
theorem snapshot_succ (called : calls[count]? = some call) :
    snapshot session calls (count + 1) = (snapshot session calls count).afterCall call := by
  rw [snapshot, List.take_add_one, called, afterCalls, List.foldl_append]
  rfl

/-- After the last call the snapshots stay the same. -/
theorem snapshot_of_end (ended : calls[count]? = none) :
    snapshot session calls (count + 1) = snapshot session calls count := by
  rw [snapshot, List.take_add_one, ended, Option.toList_none, List.append_nil]
  rfl

/-- From any moment of a history to a later one, no identity gets another node. -/
theorem persists_snapshot (session : Nat) (calls : List Call) {first second : Nat}
    (le : first ≤ second) :
    (snapshot session calls first).Persists (snapshot session calls second) := by
  induction second, le using Nat.le_induction with
  | base => exact Persists.refl _
  | succ count _ ih =>
      cases called : calls[count]? with
      | none =>
          rw [snapshot_of_end called]
          exact ih
      | some call =>
          rw [snapshot_succ called]
          exact ih.trans ((wellFormed_snapshot session calls count).afterCall call).2

/-- The call that hands out an identity. -/
theorem exists_call_of_handedOut (handedOut : id < (snapshot session calls count).nextId) :
    ∃ made < count, (snapshot session calls made).nextId ≤ id ∧
      id < (snapshot session calls (made + 1)).nextId := by
  induction count with
  | zero => exact absurd handedOut (Nat.not_lt_zero id)
  | succ count ih =>
      by_cases earlier : id < (snapshot session calls count).nextId
      · obtain ⟨made, before, found⟩ := ih earlier
        exact ⟨made, Nat.lt_succ_of_lt before, found⟩
      · exact ⟨count, Nat.lt_succ_self count, Nat.not_lt.mp earlier, handedOut⟩

/-- A node becomes unknown only in a sweep. -/
theorem swept_of_unknown (known : ¬(snapshot session calls now).Unknown id)
    (unknown : (snapshot session calls (now + 1)).Unknown id) : calls[now]? = some .sweep := by
  cases called : calls[now]? with
  | none =>
      rw [snapshot_of_end called] at unknown
      exact absurd unknown known
  | some call =>
      rw [snapshot_succ called, unknown_iff_contains] at unknown
      rw [unknown_iff_contains, not_not] at known
      have wf := wellFormed_snapshot session calls now
      by_contra notSweep
      refine unknown ((wf.contains_afterCall_iff known call).mpr fun isSweep => ?_)
      exact absurd (congrArg some isSweep) notSweep

/-- What an identity stands for is fixed by the call that hands it out: later the queries answer
the same or that the node is not in the pool, a node that was lost stays lost, and only a sweep
loses it. -/
theorem handles_stable (session : Nat) (calls : List Call) (id : NodeId)
    (handedOut : id < (snapshot session calls calls.length).nextId) :
    ∃ made < calls.length, StableSince session calls made id := by
  obtain ⟨made, inRun, new, isMade⟩ := exists_call_of_handedOut handedOut
  have inside : ∀ now > made, id < (snapshot session calls now).slots.size := fun now later =>
    Nat.lt_of_lt_of_le isMade (persists_snapshot session calls later).size
  refine ⟨made, inRun, new, ?_, ?_, ?_, fun now _ => swept_of_unknown⟩
  · rw [snapshot_succ (List.getElem?_eq_getElem inRun)] at isMade ⊢
    exact (wellFormed_snapshot session calls made).contains_of_new new isMade
  · intro now later
    have persists := persists_snapshot session calls (Nat.succ_le_of_lt later)
    rcases persists.entry?_eq_or isMade with same | missing
    · exact Or.inl (answers_of_same_entry same)
    · exact Or.inr (unknown_iff.mpr missing)
  · intro now since unknown later le
    exact (persists_snapshot session calls le).unknown (inside now since) unknown

/-- A variable that is collected and made again: the first identity stays unknown, and the structure
gets a new one. -/
def collectedVariable : List Call :=
  [.var .float "x", .unary .neg 0, .mark 7, .var .vec2 "y", .mark 2, .sweep, .var .float "x"]

/-- The first identity of a variable that was collected and made again. -/
theorem handles_stable_collectedVariable :
    (snapshot 0 collectedVariable 6).contains 0 = false ∧
      (snapshot 0 collectedVariable 7).lookup (.var .float "x") = some 3 ∧
      ∃ made < 7, StableSince 0 collectedVariable made 0 := by
  have collected : (snapshot 0 collectedVariable 6).contains 0 = false := by decide +kernel
  have renewed : (snapshot 0 collectedVariable 7).lookup (.var .float "x") = some 3 := by
    decide +kernel
  have handedOut : 0 < (snapshot 0 collectedVariable 7).nextId := by decide +kernel
  exact ⟨collected, renewed, handles_stable 0 collectedVariable 0 handedOut⟩

end Shading.Pool
