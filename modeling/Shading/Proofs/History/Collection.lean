import Shading.Proofs.History.Handles
import Shading.Proofs.Pool.Orders

/-!
# Collection over a history

Marks pile up from one sweep to the next, between calls that add nodes and calls that fail. A call
marks what is below the roots it was given, as far as they are in the pool (`Pool.Marks`), and no
other call changes the marks. So a sweep finds marked exactly what is below the roots that were
marked since the sweep before it, and it keeps exactly that (`Pool.sweep_exact`).
-/

namespace Shading.Pool

variable {pool before after : Pool} {id root : NodeId} {call : Call} {session now : Nat}
  {calls : List Call}

/-- A call succeeds in marking a root. Marking an effect marks its position also when the color is
not in the pool. -/
inductive Marks (pool : Pool) : Call → NodeId → Prop where
  | root {root : NodeId} {after : Pool} (ran : mark root pool = .ok () after) :
      Marks pool (.mark root) root
  | position {effect : Effect} {after : Pool} (ran : mark effect.position pool = .ok () after) :
      Marks pool (.markEffect effect) effect.position
  | color {effect : Effect} {middle after : Pool}
      (ran : mark effect.position pool = .ok () middle)
      (ranNext : mark effect.color middle = .ok () after) :
      Marks pool (.markEffect effect) effect.color

/-- A root was marked in a history before a given call, and there was no sweep in between. -/
def MarkedSince (session : Nat) (calls : List Call) (now : Nat) (root : NodeId) : Prop :=
  ∃ moment < now, (∃ call, calls[moment]? = some call ∧
      (snapshot session calls moment).Marks call root) ∧
    ∀ between, moment < between → between < now → calls[between]? ≠ some .sweep

/-- What a collection that keeps given roots does to a pool, with the number that it gives. -/
structure Collected (roots : NodeId → Prop) (before after : Pool) (removed : Nat) : Prop where
  /-- What is left is what is below the roots. -/
  kept : ∀ id, after.contains id = true ↔ ∃ root, roots root ∧ before.Below root id
  /-- The structures that are found are those of the nodes that are left. -/
  indexed : ∀ node id, after.lookup node = some id ↔
    after.contains id = true ∧ before.node? id = some node
  /-- What is left answers as before. -/
  unchanged : ∀ id, after.contains id = true →
    after.node id = before.node id ∧ after.typeOf id = before.typeOf id
  nextId : after.nextId = before.nextId
  /-- The number is the number of nodes that were removed. -/
  counted : removed = (List.range before.nextId).countP fun id =>
    before.contains id && !after.contains id
  unmarked : ∀ id, id ∉ after.marked

/-! ### What is below a root -/

/-- Adding nodes changes nothing below a node that was there. -/
theorem Extends.below_iff (extension : before.Extends after) (wf : before.WellFormed)
    (present : before.contains root = true) : after.Below root id ↔ before.Below root id := by
  have sameNode : ∀ {id}, before.contains id = true → after.node? id = before.node? id := by
    intro id inside
    obtain ⟨entry, found⟩ := Option.isSome_iff_exists.mp inside
    rw [Pool.node?, Pool.node?, found, extension.entry?_eq found]
  constructor
  · intro below
    have both : before.contains id = true ∧ before.Below root id := by
      induction below with
      | refl => exact ⟨present, .refl⟩
      | tail _ isChild ih =>
          obtain ⟨node, found, member⟩ := isChild
          rw [sameNode ih.1] at found
          exact ⟨wf.child_contains found member, ih.2.tail ⟨node, found, member⟩⟩
    exact both.2
  · intro below
    induction below with
    | refl => exact .refl
    | tail _ isChild ih =>
        obtain ⟨node, found, member⟩ := isChild
        obtain ⟨type, inside⟩ := node?_eq_some_iff.mp found
        exact ih.tail ⟨node, (sameNode (contains_of_present inside)).trans found, member⟩

/-! ### One call -/

/-- Marking that succeeds marks what is entered below the root. -/
theorem exists_preOrder_of_mark (ran : Pool.mark root pool = .ok () after) :
    ∃ order, pool.preOrder root = .ok order ∧
      after = { pool with marked := pool.marked.insertMany order } := by
  unfold Pool.mark at ran
  split at ran
  next order entered =>
    cases ran
    exact ⟨order, entered, rfl⟩
  next => cases ran

/-- Marking that fails marks nothing. -/
theorem eq_of_mark_error {cause : Error} (ran : Pool.mark root pool = .error cause after) :
    after = pool := by
  unfold Pool.mark at ran
  split at ran
  next => cases ran
  next =>
    cases ran
    rfl

/-- Only a node of the pool is marked as a root. -/
theorem Marks.contains (marks : pool.Marks call root) : pool.contains root = true := by
  cases marks with
  | root ran | position ran =>
      obtain ⟨order, entered, -⟩ := exists_preOrder_of_mark ran
      exact contains_of_preOrder entered
  | color ran ranNext =>
      -- The color is looked for after the position is marked, among the same nodes.
      obtain ⟨first, -, rfl⟩ := exists_preOrder_of_mark ran
      obtain ⟨order, entered, -⟩ := exists_preOrder_of_mark ranNext
      have inside := contains_of_preOrder entered
      exact inside

/-- A successful mark adds what is below its root. -/
theorem WellFormed.mem_marked_of_mark (wf : pool.WellFormed)
    (ran : Pool.mark root pool = .ok () after) :
    id ∈ after.marked ↔ id ∈ pool.marked ∨ pool.Below root id := by
  obtain ⟨order, entered, rfl⟩ := exists_preOrder_of_mark ran
  change id ∈ pool.marked.insertMany order ↔ _
  rw [Std.TreeSet.mem_insertMany_list, List.contains_iff_mem, wf.mem_preOrder_iff entered]

/-- Marking a root adds what is below it to the marks. -/
theorem WellFormed.mem_marked_afterMark (wf : pool.WellFormed) (root : NodeId) :
    id ∈ (pool.afterCall (.mark root)).marked ↔
      id ∈ pool.marked ∨ ∃ marked, pool.Marks (.mark root) marked ∧ pool.Below marked id := by
  cases ran : Pool.mark root pool with
  | ok result after =>
      have left : pool.afterCall (.mark root) = after := leftBy_of_ok ran
      rw [left, wf.mem_marked_of_mark ran]
      refine or_congr_right ⟨fun below => ⟨root, .root ran, below⟩, ?_⟩
      rintro ⟨marked, ⟨⟩, below⟩
      exact below
  | error cause after =>
      have left : pool.afterCall (.mark root) = after := leftBy_of_error ran
      have nothing : ∀ marked, ¬pool.Marks (.mark root) marked := by
        rintro marked ⟨done⟩
        rw [ran] at done
        cases done
      simp only [left, eq_of_mark_error ran, nothing, false_and, exists_false, or_false]

/-- Marking an effect adds what is below its marked roots to the marks. -/
theorem WellFormed.mem_marked_afterMarkEffect (wf : pool.WellFormed) (effect : Effect) :
    id ∈ (pool.afterCall (.markEffect effect)).marked ↔
      id ∈ pool.marked ∨
        ∃ marked, pool.Marks (.markEffect effect) marked ∧ pool.Below marked id := by
  cases ran : Pool.mark effect.position pool with
  | error cause after =>
      have left : pool.afterCall (.markEffect effect) = after :=
        leftBy_of_error (bind_of_error ran)
      have nothing : ∀ marked, ¬pool.Marks (.markEffect effect) marked := by
        rintro marked (_ | done | ⟨done, -⟩)
        all_goals
          rw [ran] at done
          cases done
      simp only [left, eq_of_mark_error ran, nothing, false_and, exists_false, or_false]
  | ok result middle =>
      have wfMiddle : middle.WellFormed := leftBy_of_ok ran ▸ (wf.mark effect.position).1
      have sameBelow : middle.Below = pool.Below := by
        obtain ⟨order, -, rfl⟩ := exists_preOrder_of_mark ran
        rfl
      cases ranNext : Pool.mark effect.color middle with
      | error cause after =>
          -- The position stays marked although the color is not in the pool.
          have left : pool.afterCall (.markEffect effect) = after :=
            leftBy_of_error ((bind_of_ok ran).trans ranNext)
          rw [left, eq_of_mark_error ranNext, wf.mem_marked_of_mark ran]
          refine or_congr_right ⟨fun below => ⟨effect.position, .position ran, below⟩, ?_⟩
          rintro ⟨_, _ | _ | ⟨first, done⟩, below⟩
          · exact below
          · rw [ran] at first
            cases first
            rw [ranNext] at done
            cases done
      | ok _ after =>
          have left : pool.afterCall (.markEffect effect) = after :=
            leftBy_of_ok ((bind_of_ok ran).trans ranNext)
          rw [left, wfMiddle.mem_marked_of_mark ranNext, wf.mem_marked_of_mark ran, sameBelow,
            or_assoc]
          refine or_congr_right ⟨?_, ?_⟩
          · rintro (below | below)
            · exact ⟨effect.position, .position ran, below⟩
            · exact ⟨effect.color, .color ran ranNext, below⟩
          · rintro ⟨_, _ | _ | _, below⟩
            · exact Or.inl below
            · exact Or.inr below

/-- Calls that neither mark nor sweep leave the marks as they are. -/
theorem WellFormed.marked_afterCall (wf : pool.WellFormed) (notSweep : call ≠ .sweep)
    (notMark : ∀ root, call ≠ .mark root) (notMarkEffect : ∀ effect, call ≠ .markEffect effect) :
    (pool.afterCall call).marked = pool.marked := by
  cases call with
  | constant type components => exact (keeps_constant type components pool wf).2.marked
  | var type name => exact (keeps_var type name pool wf).2.marked
  | unary op operand => exact (keeps_unary op operand pool wf).2.marked
  | binary lhs op rhs => exact (keeps_binary lhs op rhs pool wf).2.marked
  | qualify kind inner => exact (keeps_qualify kind inner pool wf).2.marked
  | shader program => exact (keeps_shader program pool wf).2.marked
  | substitute root target replacement =>
      exact (keeps_substitute root target replacement pool wf).2.marked
  | mark root => exact absurd rfl (notMark root)
  | sweep => exact absurd rfl notSweep
  | markEffect effect => exact absurd rfl (notMarkEffect effect)
  | split effect reserved => exact (Effect.keeps_split effect reserved pool wf).2.marked
  | bindVertexInputs stages =>
      have kept := VertexBinding.keepsPool_bindOutputs stages.vertex.outputs.entries
        ⟨pool, stages, .empty⟩ wf
      rw [← leftByBinding_eq] at kept
      exact kept.2.marked
  | build effect options => exact (keeps_build effect options pool wf).2.marked

/-- A call other than a sweep adds to the marks what is below the roots that it marks. -/
theorem WellFormed.mem_marked_afterCall (wf : pool.WellFormed) (notSweep : call ≠ .sweep) :
    id ∈ (pool.afterCall call).marked ↔
      id ∈ pool.marked ∨ ∃ root, pool.Marks call root ∧ pool.Below root id := by
  by_cases isMark : ∃ root, call = .mark root
  · obtain ⟨root, rfl⟩ := isMark
    exact wf.mem_marked_afterMark root
  · by_cases isMarkEffect : ∃ effect, call = .markEffect effect
    · obtain ⟨effect, rfl⟩ := isMarkEffect
      exact wf.mem_marked_afterMarkEffect effect
    · have nothing : ∀ root, ¬pool.Marks call root := by
        rintro root (_ | _ | _)
        · exact isMark ⟨_, rfl⟩
        · exact isMarkEffect ⟨_, rfl⟩
        · exact isMarkEffect ⟨_, rfl⟩
      rw [wf.marked_afterCall notSweep (fun root same => isMark ⟨root, same⟩)
        fun effect same => isMarkEffect ⟨effect, same⟩]
      simp only [nothing, false_and, exists_false, or_false]

/-! ### Histories -/

/-- One call later, a root is marked if it was before and the call is no sweep, or if the call marks
it. -/
theorem markedSince_succ_iff :
    MarkedSince session calls (now + 1) root ↔
      (MarkedSince session calls now root ∧ calls[now]? ≠ some .sweep) ∨
        ∃ call, calls[now]? = some call ∧ (snapshot session calls now).Marks call root := by
  constructor
  · rintro ⟨moment, before, marks, quiet⟩
    rcases Nat.lt_succ_iff_lt_or_eq.mp before with earlier | rfl
    · refine Or.inl ⟨⟨moment, earlier, marks, fun between later inside => ?_⟩, ?_⟩
      · exact quiet between later (Nat.lt_succ_of_lt inside)
      · exact quiet now earlier (Nat.lt_succ_self now)
    · exact Or.inr marks
  · rintro (⟨⟨moment, before, marks, quiet⟩, notSweep⟩ | marks)
    · refine ⟨moment, Nat.lt_succ_of_lt before, marks, fun between later inside => ?_⟩
      rcases Nat.lt_succ_iff_lt_or_eq.mp inside with earlier | rfl
      · exact quiet between later earlier
      · exact notSweep
    · exact ⟨now, Nat.lt_succ_self now, marks, fun between later inside => by omega⟩

/-- What is marked at a moment of a history is what is below the roots marked since the last
sweep. -/
theorem mem_marked_snapshot (session : Nat) (calls : List Call) (now : Nat) (id : NodeId) :
    id ∈ (snapshot session calls now).marked ↔
      ∃ root, MarkedSince session calls now root ∧ (snapshot session calls now).Below root id := by
  induction now generalizing id with
  | zero =>
      constructor
      · intro member
        exact absurd member Std.TreeSet.not_mem_emptyc
      · rintro ⟨root, ⟨moment, before, -⟩, -⟩
        exact absurd before (Nat.not_lt_zero moment)
  | succ now ih =>
      have wf := wellFormed_snapshot session calls now
      cases called : calls[now]? with
      | none =>
          rw [snapshot_of_end called, ih]
          simp [markedSince_succ_iff, called]
      | some call =>
          by_cases isSweep : call = .sweep
          · subst isSweep
            rw [snapshot_succ called]
            constructor
            · intro member
              exact absurd member Std.TreeSet.not_mem_emptyc
            · rintro ⟨root, since, -⟩
              rcases markedSince_succ_iff.mp since with ⟨-, notSweep⟩ | ⟨same, isCall, marks⟩
              · exact absurd called notSweep
              · rw [called] at isCall
                cases isCall
                cases marks
          -- Any call but a sweep only adds nodes, so what is below a root stays the same.
          · have extension := (wf.extends_afterCall isSweep).2
            have since : ∀ root, MarkedSince session calls (now + 1) root ↔
                MarkedSince session calls now root ∨
                  (snapshot session calls now).Marks call root := by
              intro root
              simp [markedSince_succ_iff, called, isSweep]
            rw [snapshot_succ called, wf.mem_marked_afterCall isSweep, ih]
            simp only [since, or_and_right, exists_or]
            refine or_congr (exists_congr fun root => ?_) (exists_congr fun root => ?_)
            · refine and_congr_right fun since => (extension.below_iff wf ?_).symm
              obtain ⟨entry, found, -⟩ := wf.marked root ((ih root).mpr ⟨root, since, .refl⟩)
              exact contains_of_present found
            · exact and_congr_right fun marks => (extension.below_iff wf marks.contains).symm

/-! ### Sweeping -/

/-- The nodes of a pool are counted by their identities. -/
theorem size_eq_countP (pool : Pool) :
    pool.size = (List.range pool.nextId).countP pool.contains := by
  have slots : pool.slots.toList = (List.range pool.nextId).map pool.entry? := by
    refine List.ext_getElem (by simp [nextId]) fun place inside _ => ?_
    rw [Array.length_toList] at inside
    simp [Pool.entry?, inside]
  rw [size, ← Array.countP_toList, slots, List.countP_map]
  rfl

/-- What a sweep does, in terms of the marks that it finds. -/
theorem WellFormed.collected_swept (wf : pool.WellFormed) {roots : NodeId → Prop}
    (marked : ∀ id, id ∈ pool.marked ↔ ∃ root, roots root ∧ pool.Below root id) :
    Collected roots pool pool.swept (pool.size - pool.swept.size) := by
  have present : ∀ id, pool.swept.contains id = true ↔ id ∈ pool.marked := by
    intro id
    rw [Pool.contains, entry?_swept]
    constructor
    · intro isSome
      by_contra unmarked
      rw [if_neg unmarked] at isSome
      cases isSome
    · intro member
      obtain ⟨entry, found, -⟩ := wf.marked id member
      rw [if_pos member, found]
      rfl
  have sameEntry : ∀ id, pool.swept.contains id = true →
      Pool.entry? pool.swept id = pool.entry? id := by
    intro id isPresent
    rw [entry?_swept, if_pos ((present id).mp isPresent)]
  have sameNext : pool.swept.nextId = pool.nextId := Array.size_mapIdx
  refine ⟨fun id => (present id).trans (marked id), fun node id => ?_,
    fun id isPresent => answers_of_same_entry (sameEntry id isPresent), sameNext, ?_, ?_⟩
  · rw [lookup, wf.swept.indexed, node?_swept, present]
    exact Option.ite_none_right_eq_some
  · rw [size_eq_countP, size_eq_countP, sameNext,
      List.countP_eq_countP_filter_add _ pool.contains pool.swept.contains, List.countP_filter,
      List.countP_filter]
    have inside : (List.range pool.nextId).countP
          (fun id => pool.contains id && pool.swept.contains id) =
        (List.range pool.nextId).countP pool.swept.contains := by
      refine List.countP_congr fun id _ => ?_
      rw [Bool.and_eq_true]
      refine and_iff_right_of_imp fun isPresent => ?_
      rwa [Pool.contains, ← sameEntry id isPresent]
    rw [inside, Nat.add_sub_cancel_left]
  · intro id
    exact Std.TreeSet.not_mem_emptyc

/-- At every sweep of a history, what is left is what is below the roots marked since the sweep
before it, with the same identities, structures and types. -/
theorem sweep_exact (session : Nat) (calls : List Call) (now : Nat)
    (called : calls[now]? = some .sweep) :
    ∃ removed, Pool.sweep (snapshot session calls now) =
        .ok removed (snapshot session calls (now + 1)) ∧
      Collected (MarkedSince session calls now) (snapshot session calls now)
        (snapshot session calls (now + 1)) removed := by
  rw [snapshot_succ called]
  exact ⟨_, rfl, (wellFormed_snapshot session calls now).collected_swept
    (mem_marked_snapshot session calls now)⟩

/-- Two collections. Before the second one an effect is marked whose color is not in the pool, a
marked structure is made again, and a program is marked, whose outputs stay with it. -/
def repeatedCollection : List Call :=
  [.var .float "x", .unary .neg 0, .unary .abs 1, .mark 2, .sweep, .var .vec2 "y",
    .markEffect ⟨1, 9⟩, .unary .neg 0, .mark 7, .var .vec3 "z",
    .shader { stage := .fragment, outputs := .ofList [("o_Color", 4)] }, .mark 5, .sweep]

/-- What the second of two collections keeps and counts. -/
theorem sweep_exact_repeatedCollection :
    (List.range 6).filter (snapshot 0 repeatedCollection 13).contains = [0, 1, 4, 5] ∧
      ∃ removed, Pool.sweep (snapshot 0 repeatedCollection 12) =
          .ok removed (snapshot 0 repeatedCollection 13) ∧
        Collected (MarkedSince 0 repeatedCollection 12) (snapshot 0 repeatedCollection 12)
          (snapshot 0 repeatedCollection 13) removed :=
  ⟨by decide +kernel, sweep_exact 0 repeatedCollection 12 rfl⟩

end Shading.Pool
