import Mathlib.Algebra.Ring.Nat
import Shading.Evaluation.Trace
import Shading.Proofs.Interpretation.Transparency
import Shading.Proofs.Reachable

/-!
# What a walk does to its cache

Which nodes a walk computes and what it counts depend on the nodes that have results when it starts,
and not on what these results are. A walk computes the nodes that it reaches without passing a node
that has a result (`Pool.Uncached`), each once, and every other entering of a node is a hit
(`Interpretation.Advances`). It is followed here from any cache at all, with any interpretation;
when it fails, the node at which it stops or the interpretation is the cause
(`Interpretation.passes_enter`).

A node is entered again while it is computed only if it is below itself. So it is the order of age
that lets the induction count every node once.
-/

namespace Shading

variable {α : Type} {interpretation : Interpretation α} {pool : Pool} {cache before after : Cache α}
  {id root child first : NodeId} {node : Node} {tree : Tree}

/-- The number of children of a node; a child in two places counts twice. -/
def Pool.childCount (pool : Pool) (id : NodeId) : Nat :=
  match pool.node? id with
  | some node => node.children.length
  | none => 0

/-- The node is reached from a root along nodes that have no results, and has none itself. -/
inductive Pool.Uncached (pool : Pool) (cache : Cache α) (root : NodeId) : NodeId → Prop where
  | root (unknown : root ∉ cache.results) : Uncached pool cache root root
  | child {id child : NodeId} (above : Uncached pool cache root id) (edge : pool.Child id child)
      (unknown : child ∉ cache.results) : Uncached pool cache root child

namespace Pool.Uncached

/-- A node that is reached so has no result. -/
theorem unknown (uncached : pool.Uncached cache root id) : id ∉ cache.results := by
  cases uncached with
  | root unknown => exact unknown
  | child _ _ unknown => exact unknown

/-- If anything is reached so, the root has no result. -/
theorem root_unknown (uncached : pool.Uncached cache root id) : root ∉ cache.results := by
  induction uncached with
  | root unknown => exact unknown
  | child _ _ _ ih => exact ih

/-- Nothing younger than the root is reached. -/
theorem le (uncached : pool.Uncached cache root id) (wf : pool.WellFormed) : id ≤ root := by
  induction uncached with
  | root _ => exact Nat.le_refl root
  | child _ edge _ ih =>
      obtain ⟨node, found, member⟩ := edge
      exact Nat.le_trans (Nat.le_of_lt (wf.child_lt found member)) ih

/-- What is reached from a child is reached from a parent without a result. -/
theorem head (uncached : pool.Uncached cache child id) (edge : pool.Child root child)
    (unknown : root ∉ cache.results) : pool.Uncached cache root id := by
  induction uncached with
  | root unknownChild => exact .child (.root unknown) edge unknownChild
  | child _ edgeBelow unknownBelow ih => exact .child ih edgeBelow unknownBelow

/-- A node is reached through one of the children of the root, or it is the root. -/
theorem iff_of_node? (found : pool.node? root = some node) (unknown : root ∉ cache.results) :
    pool.Uncached cache root id ↔
      id = root ∨ ∃ child ∈ node.children, pool.Uncached cache child id := by
  constructor
  · intro uncached
    induction uncached with
    | root _ => exact .inl rfl
    | child above edge unknownChild ih =>
        refine .inr ?_
        rcases ih with rfl | ⟨child, isChild, below⟩
        · obtain ⟨same, isNode, member⟩ := edge
          rw [found] at isNode
          cases isNode
          exact ⟨_, member, .root unknownChild⟩
        · exact ⟨child, isChild, .child below edge unknownChild⟩
  · rintro (rfl | ⟨child, isChild, below⟩)
    · exact .root unknown
    · exact below.head ⟨node, found, isChild⟩ unknown

/-- After what is reached from one node has got results, the rest of what is reached from another
one is reached without them. -/
theorem iff_of_known (known : ∀ other, other ∈ after.results ↔
      other ∈ before.results ∨ pool.Uncached before first other) :
    pool.Uncached before first id ∨ pool.Uncached before root id ↔
      pool.Uncached before first id ∨ pool.Uncached after root id := by
  constructor
  · rintro (earlier | uncached)
    · exact .inl earlier
    · have new : ∀ other, other ∉ before.results →
          pool.Uncached before first other ∨ other ∉ after.results := by
        intro other unknown
        rw [known, not_or]
        by_cases earlier : pool.Uncached before first other
        · exact .inl earlier
        · exact .inr ⟨unknown, earlier⟩
      induction uncached with
      | root unknown => exact (new _ unknown).imp_right .root
      | child _ edge unknown ih =>
          rcases ih with earlier | later
          · exact .inl (.child earlier edge unknown)
          · exact (new _ unknown).imp_right (.child later edge)
  · refine Or.imp_right fun uncached => ?_
    have unknown : ∀ other, other ∉ after.results → other ∉ before.results :=
      fun other unknown isKnown => unknown ((known other).mpr (.inl isKnown))
    induction uncached with
    | root unknownRoot => exact .root (unknown _ unknownRoot)
    | child _ edge unknownChild ih => exact .child ih edge (unknown _ unknownChild)

end Pool.Uncached

namespace Cache

/-- A node is in the cache if a result is found for it. -/
theorem mem_results_iff : id ∈ cache.results ↔ (cache.results[id]?).isSome = true := by
  rw [Std.TreeMap.mem_iff_contains, Std.TreeMap.contains_eq_isSome_getElem?]

theorem results_of_not_mem (unknown : id ∉ cache.results) : cache.results[id]? = none :=
  Option.not_isSome_iff_eq_none.mp fun isKnown => unknown (mem_results_iff.mpr isKnown)

theorem contains_of_not_mem (unknown : id ∉ cache.results) : cache.results.contains id = false := by
  rw [← Bool.not_eq_true, ← Std.TreeMap.mem_iff_contains]
  exact unknown

/-- Recording a result adds its node to the cache. -/
theorem mem_record (value : α) :
    child ∈ (cache.record id value).results ↔ child = id ∨ child ∈ cache.results := by
  rw [record, Std.TreeMap.mem_insert, Std.LawfulEqCmp.compare_eq_iff_eq, eq_comm]

/-- Recording the result of a new node makes the cache larger by one. -/
theorem size_record (unknown : id ∉ cache.results) (value : α) :
    (cache.record id value).results.size = cache.results.size + 1 := by
  rw [record, Std.TreeMap.size_insert, if_neg (mt Std.TreeMap.mem_iff_contains.mpr unknown)]

/-- An operand that has a result is found. -/
theorem exists_operand (typed : (pool.type? id).isSome) (known : id ∈ cache.results) :
    ∃ operand, cache.operand pool id = .ok operand := by
  obtain ⟨type, typeEq⟩ := Option.isSome_iff_exists.mp typed
  obtain ⟨value, found⟩ := Option.isSome_iff_exists.mp (mem_results_iff.mp known)
  refine ⟨⟨type, value⟩, ?_⟩
  rw [operand, Pool.typeOf_eq_ok_iff.mpr typeEq]
  simp only [bind, Except.bind, found]
  rfl

end Cache

namespace Interpretation

variable {walk middle next : Walk α} {ids rest added more : List NodeId} {cause : Error}

/-- The interpretation itself gives the error for some node and some results of its operands. -/
inductive Raises (interpretation : Interpretation α) (cause : Error) : Prop where
  | constant {type : ValueType} {components : List Binary64}
      (raised : interpretation.constant type components = .error cause) :
      Raises interpretation cause
  | var {type : ValueType} {name : String} (raised : interpretation.var type name = .error cause) :
      Raises interpretation cause
  | unary {op : UnaryOp} {operand : Operand α}
      (raised : interpretation.unary op operand = .error cause) : Raises interpretation cause
  | binary {op : BinaryOp} {type : ValueType} {left right : Operand α}
      (raised : interpretation.binary op type left right = .error cause) :
      Raises interpretation cause

/-- What a walk can fail with: a node that is not in the pool, a qualified expression, a program, or
an error that the interpretation gives. -/
inductive Fails (interpretation : Interpretation α) (pool : Pool) : Error → Prop where
  | unknown {id : NodeId} (absent : pool.contains id = false) :
      Fails interpretation pool (.unknownNode id)
  | qualified {id inner : NodeId} {kind : Qualifier}
      (found : pool.node? id = some (.qualified kind inner)) :
      Fails interpretation pool (.illegalQualifier kind interpretation.action)
  | program {id : NodeId} {program : Program} (found : pool.node? id = some (.shader program)) :
      Fails interpretation pool (.notAnExpression id)
  | raised {cause : Error} (raises : interpretation.Raises cause) :
      Fails interpretation pool cause

/-- A walk has entered the nodes of a list, computed some nodes, last first, and counted. -/
structure Advances (pool : Pool) (ids added : List NodeId) (walk next : Walk α) : Prop where
  computed : next.computed = added ++ walk.computed
  distinct : added.Nodup
  reached : ∀ id, id ∈ added ↔ ∃ root ∈ ids, pool.Uncached walk.cache root id
  known : ∀ id, id ∈ next.cache.results ↔ id ∈ walk.cache.results ∨ id ∈ added
  size : next.cache.results.size = walk.cache.results.size + added.length
  misses : next.cache.misses = walk.cache.misses + added.length
  /-- Every entering of a node is a hit or leads to a computation. -/
  hits : next.cache.hits + added.length =
    walk.cache.hits + ids.length + (added.map pool.childCount).sum

namespace Advances

/-- A node that was entered has a result. -/
theorem entered (advances : Advances pool ids added walk next) (isEntered : id ∈ ids) :
    id ∈ next.cache.results := by
  rw [advances.known, advances.reached]
  by_cases isKnown : id ∈ walk.cache.results
  · exact .inl isKnown
  · exact .inr ⟨id, isEntered, .root isKnown⟩

/-- A node that had no result and was not computed has none afterwards. -/
theorem unknown (advances : Advances pool ids added walk next)
    (unknown : id ∉ walk.cache.results) (notYet : id ∉ added) : id ∉ next.cache.results := by
  rw [advances.known, not_or]
  exact ⟨unknown, notYet⟩

theorem nil (pool : Pool) (walk : Walk α) : Advances pool [] [] walk walk where
  computed := rfl
  distinct := .nil
  reached id := by simp
  known id := by simp
  size := rfl
  misses := rfl
  hits := rfl

/-- A node that has a result is a hit. -/
theorem hit (pool : Pool) (known : id ∈ walk.cache.results) :
    Advances pool [id] [] walk { walk with cache := walk.cache.hit } where
  computed := rfl
  distinct := .nil
  reached other := by
    simp only [List.not_mem_nil, List.mem_singleton, exists_eq_left, false_iff]
    exact fun uncached => uncached.root_unknown known
  known other := by simp [Cache.hit]
  size := rfl
  misses := rfl
  hits := rfl

/-- One node is entered, and then the others. -/
theorem cons (earlier : Advances pool [id] added walk middle)
    (later : Advances pool rest more middle next) :
    Advances pool (id :: rest) (more ++ added) walk next where
  computed := by rw [later.computed, earlier.computed, List.append_assoc]
  distinct := by
    refine List.nodup_append.mpr ⟨later.distinct, earlier.distinct, ?_⟩
    -- What was computed earlier has a result, and so it is not reached later.
    rintro other isLater _ isEarlier rfl
    obtain ⟨root, -, uncached⟩ := (later.reached other).mp isLater
    exact uncached.unknown ((earlier.known other).mpr (.inr isEarlier))
  reached other := by
    have known : ∀ other, other ∈ middle.cache.results ↔
        other ∈ walk.cache.results ∨ pool.Uncached walk.cache id other := by
      intro other
      rw [earlier.known, earlier.reached]
      simp only [List.mem_singleton, exists_eq_left]
    simp only [List.mem_append, later.reached, earlier.reached, List.mem_cons, List.not_mem_nil,
      or_false, exists_eq_left, exists_eq_or_imp]
    constructor
    · rintro (⟨root, isRoot, uncached⟩ | uncached)
      · exact ((Pool.Uncached.iff_of_known known).mpr (.inr uncached)).imp_right
          fun below => ⟨root, isRoot, below⟩
      · exact .inl uncached
    · rintro (uncached | ⟨root, isRoot, uncached⟩)
      · exact .inr uncached
      · exact ((Pool.Uncached.iff_of_known known).mp (.inr uncached)).symm.imp_left
          fun below => ⟨root, isRoot, below⟩
  known other := by
    rw [later.known, earlier.known, List.mem_append, or_assoc, or_comm (a := other ∈ more)]
  size := by
    rw [later.size, earlier.size, List.length_append]
    omega
  misses := by
    rw [later.misses, earlier.misses, List.length_append]
    omega
  hits := by
    have firstHits := earlier.hits
    have restHits := later.hits
    rw [List.length_append, List.map_append, List.sum_append, List.length_cons]
    rw [List.length_singleton] at firstHits
    omega

/-- A node whose children were entered is computed. -/
theorem record (below : Advances pool node.children added walk middle)
    (found : pool.node? id = some node) (unknown : id ∉ walk.cache.results) (notYet : id ∉ added)
    (value : α) :
    Advances pool [id] (id :: added) walk
      ⟨middle.cache.record id value, id :: middle.computed⟩ where
  computed := by rw [below.computed, List.cons_append]
  distinct := List.nodup_cons.mpr ⟨notYet, below.distinct⟩
  reached other := by
    simp only [List.mem_cons, List.not_mem_nil, or_false, exists_eq_left, below.reached,
      Pool.Uncached.iff_of_node? found unknown]
  known other := by
    rw [Cache.mem_record, below.known, List.mem_cons, or_left_comm]
  size := by
    rw [Cache.size_record (below.unknown unknown notYet), below.size, List.length_cons,
      Nat.add_assoc]
  misses := by
    rw [Cache.record, below.misses, List.length_cons, Nat.add_assoc]
  hits := by
    have hits := below.hits
    have counted : pool.childCount id = node.children.length := by rw [Pool.childCount, found]
    rw [List.map_cons, List.sum_cons, counted, List.length_cons, List.length_singleton]
    change middle.cache.hits + (added.length + 1) = _
    omega

end Advances

/-! ### One node -/

/-- The nodes of a list are entered, whatever is pending after them, or the walk fails there. -/
def Passes (interpretation : Interpretation α) (pool : Pool) (ids : List NodeId) (walk : Walk α) :
    Prop :=
  (∃ added next, Advances pool ids added walk next ∧
      ∀ pending, interpretation.walkFrom pool (ids.map .enter ++ pending) walk =
        interpretation.walkFrom pool pending next) ∨
    ∃ cause next, interpretation.Fails pool cause ∧
      ∀ pending, interpretation.walkFrom pool (ids.map .enter ++ pending) walk = .error cause next

/-- A node whose operands have results fails only by the interpretation. -/
theorem raises_of_compute (wf : pool.WellFormed) (found : pool.node? id = some node)
    (shown : pool.Shows node tree) (plain : node.qualifier? = none)
    (known : ∀ child ∈ node.children, child ∈ cache.results)
    (failed : interpretation.compute pool cache id = .error cause) :
    interpretation.Raises cause := by
  have operand : ∀ child ∈ node.children, ∃ operand, cache.operand pool child = .ok operand :=
    fun child member => Cache.exists_operand (wf.child_type? found member) (known child member)
  rw [compute, Pool.node_eq_ok_iff.mpr found] at failed
  cases shown with
  | constant type components => exact .constant failed
  | var type name => exact .var failed
  | unary op below =>
      obtain ⟨inner, isInner⟩ := operand _ List.mem_cons_self
      simp only [bind, Except.bind, isInner] at failed
      exact .unary failed
  | binary op belowLeft belowRight =>
      obtain ⟨left, isLeft⟩ := operand _ List.mem_cons_self
      obtain ⟨right, isRight⟩ := operand _ (List.mem_cons_of_mem _ List.mem_cons_self)
      obtain ⟨type, -, typed⟩ :=
        wf.exists_type? (wf.tree?_of_shows found (.binary op belowLeft belowRight))
      simp only [bind, Except.bind, isLeft, isRight, Pool.typeOf_eq_ok_iff.mpr typed] at failed
      exact .binary failed
  | qualified kind below => cases plain

/-- The nodes of a list are entered one after the other. -/
theorem passes_list (each : ∀ id ∈ ids, ∀ walk : Walk α, interpretation.Passes pool [id] walk)
    (walk : Walk α) : interpretation.Passes pool ids walk := by
  induction ids generalizing walk with
  | nil => exact .inl ⟨[], walk, .nil pool walk, fun pending => rfl⟩
  | cons id rest ih =>
      rcases each id List.mem_cons_self walk with
        ⟨added, middle, earlier, goesOn⟩ | ⟨cause, next, fails, stops⟩
      · rcases ih (fun other isRest => each other (List.mem_cons_of_mem _ isRest)) middle with
          ⟨more, next, later, goesOnRest⟩ | ⟨cause, next, fails, stops⟩
        · exact .inl ⟨more ++ added, next, earlier.cons later, fun pending =>
            (goesOn (rest.map .enter ++ pending)).trans (goesOnRest pending)⟩
        · exact .inr ⟨cause, next, fails, fun pending =>
            (goesOn (rest.map .enter ++ pending)).trans (stops pending)⟩
      · exact .inr ⟨cause, next, fails, fun pending => stops (rest.map .enter ++ pending)⟩

/-- A node without a result is computed after its operands, if these pass. -/
theorem passes_unknown (wf : pool.WellFormed) (unknown : id ∉ walk.cache.results)
    (found : pool.node? id = some node) (shown : pool.Shows node tree)
    (plain : node.qualifier? = none) (below : interpretation.Passes pool node.children walk) :
    interpretation.Passes pool [id] walk := by
  have expand := interpretation.walkFrom_enter wf (Cache.results_of_not_mem unknown) found shown
    plain
  rcases below with ⟨added, middle, advances, goesOn⟩ | ⟨cause, next, fails, stops⟩
  · have notYet : id ∉ added := by
      intro again
      obtain ⟨child, isChild, uncached⟩ := (advances.reached id).mp again
      exact Nat.not_lt.mpr (uncached.le wf) (wf.child_lt found isChild)
    have known : ∀ child ∈ node.children, child ∈ middle.cache.results :=
      fun child member => advances.entered member
    have leaves : ∀ pending, interpretation.walkFrom pool ([.enter id] ++ pending) walk =
        interpretation.walkFrom pool (.leave id :: pending) middle := by
      intro pending
      rw [expand, List.append_assoc, goesOn, List.singleton_append]
    have notContained := Cache.contains_of_not_mem (advances.unknown unknown notYet)
    cases computed : interpretation.compute pool middle.cache id with
    | ok value =>
        refine .inl ⟨id :: added, _, advances.record found unknown notYet value,
          fun pending => (leaves pending).trans ?_⟩
        rw [walkFrom, notContained, computed]
        rfl
    | error cause =>
        refine .inr ⟨cause, middle, .raised (raises_of_compute wf found shown plain known computed),
          fun pending => (leaves pending).trans ?_⟩
        rw [walkFrom, notContained, computed]
        rfl
  · refine .inr ⟨cause, next, fails, fun pending => (expand pending).trans ?_⟩
    rw [List.append_assoc, stops]

/-- A walk that enters a node counts what it does, from any cache, or fails for a reason. -/
theorem passes_enter (interpretation : Interpretation α) (wf : pool.WellFormed) (id : NodeId)
    (walk : Walk α) : interpretation.Passes pool [id] walk := by
  -- The children of a node are older than the node, whatever the cache has.
  induction id using Nat.strongRecOn generalizing walk with
  | ind id ih =>
      by_cases isKnown : id ∈ walk.cache.results
      · refine .inl ⟨[], _, .hit pool isKnown, fun pending => ?_⟩
        rw [List.map_singleton, List.singleton_append, walkFrom,
          if_pos (Std.TreeMap.mem_iff_contains.mp isKnown)]
      · have stops : ∀ cause, interpretation.Fails pool cause →
            (∀ pending, interpretation.walkFrom pool (.enter id :: pending) walk =
              .error cause walk) → interpretation.Passes pool [id] walk :=
          fun cause fails stops => .inr ⟨cause, walk, fails, stops⟩
        have notContained := Cache.contains_of_not_mem isKnown
        cases present : pool.contains id with
        | false =>
            have absent := Option.not_isSome_iff_eq_none.mp (Bool.eq_false_iff.mp present)
            refine stops _ (.unknown present) fun pending => ?_
            rw [walkFrom, notContained, Pool.node?, absent]
            rfl
        | true =>
            rcases wf.exists_tree?_or_shader present with ⟨tree, unfolded⟩ | ⟨program, isProgram⟩
            · obtain ⟨node, found, shown⟩ := wf.tree?_eq_some_iff.mp unfolded
              cases isPlain : node.qualifier? with
              | none =>
                  refine passes_unknown wf isKnown found shown isPlain ?_
                  exact passes_list (fun child member => ih child (wf.child_lt found member)) walk
              | some kind =>
                  obtain ⟨inner, rfl⟩ := Node.eq_qualified_of_qualifier? isPlain
                  refine stops _ (.qualified found) fun pending => ?_
                  rw [walkFrom, notContained, found]
                  rfl
            · refine stops _ (.program isProgram) fun pending => ?_
              rw [walkFrom, notContained, isProgram]
              rfl

/-! ### Walks -/

/-- A walk from any cache gives a result and has counted what it did, or it fails for a reason. -/
theorem walk_cases (interpretation : Interpretation α) (wf : pool.WellFormed) (root : NodeId)
    (cache : Cache α) :
    (∃ value added left, Advances pool [root] added ⟨cache.attach pool.session, []⟩ left ∧
        interpretation.walk pool root ⟨cache, []⟩ = .ok value left) ∨
      ∃ cause left, interpretation.Fails pool cause ∧
        interpretation.walk pool root ⟨cache, []⟩ = .error cause left := by
  rw [walk_eq]
  rcases interpretation.passes_enter wf root ⟨cache.attach pool.session, []⟩ with
    ⟨added, left, advances, goesOn⟩ | ⟨cause, left, fails, stops⟩
  · have walked := goesOn []
    rw [List.map_singleton, List.append_nil, walkFrom] at walked
    have known := advances.entered List.mem_cons_self
    obtain ⟨value, found⟩ := Option.isSome_iff_exists.mp (Cache.mem_results_iff.mp known)
    refine .inl ⟨value, added, left, advances, ?_⟩
    rw [bind_of_ok walked, readResult_eq, found]
  · exact .inr ⟨cause, left, fails, bind_of_error (stops [])⟩

end Interpretation

/-! ### Histories -/

/-- What can be done with a cache: walks of pools, under any interpretation, and clearing it. -/
inductive CacheUse (α : Type) where
  | walk (interpretation : Interpretation α) (pool : Pool) (root : NodeId)
  | clear

namespace Cache

/-- The cache that a use leaves, whether or not it fails. -/
def afterUse (cache : Cache α) : CacheUse α → Cache α
  | .walk interpretation pool root => stateLeftBy (interpretation.run pool root) cache
  | .clear => empty

/-- The cache after a sequence of uses. A copy of a cache goes on from the uses before it was
made. -/
def afterUses (uses : List (CacheUse α)) : Cache α :=
  uses.foldl afterUse empty

/-- Every result was computed once. -/
def Exact (cache : Cache α) : Prop :=
  cache.misses = cache.results.size

theorem exact_empty (owner : Option Nat) : ({ (empty : Cache α) with owner } : Cache α).Exact := rfl

/-- A cache stays exact when it is attached to a pool. -/
theorem Exact.attach (counted : cache.Exact) (session : Nat) : (cache.attach session).Exact := by
  unfold Cache.attach
  split
  · exact counted
  · exact exact_empty _

/-- A cache stays exact when the result of a new node is recorded. -/
theorem Exact.record (counted : cache.Exact) (unknown : id ∉ cache.results) (value : α) :
    (cache.record id value).Exact := by
  rw [Exact, size_record unknown, ← counted]
  rfl

/-- A cache stays exact through a use, whether or not it fails. -/
theorem Exact.afterUse (counted : cache.Exact) (use : CacheUse α) : (cache.afterUse use).Exact := by
  cases use with
  | clear => exact exact_empty none
  | walk interpretation pool root =>
      rw [Cache.afterUse, Interpretation.stateLeftBy_run]
      exact Interpretation.keeps_walkFrom (fun _ before => before)
        (fun _ _ value unknown before => before.record unknown value) interpretation pool _ _
        (counted.attach pool.session)

/-- A cache is exact after every sequence of uses. -/
theorem exact_afterUses (uses : List (CacheUse α)) : (afterUses uses).Exact := by
  have kept : ∀ cache : Cache α, cache.Exact → (uses.foldl Cache.afterUse cache).Exact := by
    induction uses with
    | nil => exact fun cache counted => counted
    | cons use rest ih => exact fun cache counted => ih _ (counted.afterUse use)
  exact kept empty (exact_empty none)

/-- After every history of a cache its misses are as many as its results. A walk that succeeds
computes exactly the nodes that it reaches without passing a node that had a result, each once. As
many misses and as many results are added, and one hit for every entering of a node, of the root or
of a child, that does not lead to a computation. -/
theorem counters_exact :
    (∀ uses : List (CacheUse α),
      (afterUses uses).stats.misses = (afterUses uses).stats.nodes) ∧
    ∀ (interpretation : Interpretation α) (pool : Pool), pool.Reachable →
      ∀ (root : NodeId) (cache : Cache α) (value : α) (left : Walk α),
        interpretation.walk pool root { cache, computed := [] } = .ok value left →
        let start := cache.attach pool.session
        (cache.owner = some pool.session → start = cache) ∧
        left.computed.Nodup ∧ (∀ id, id ∈ left.computed ↔ pool.Uncached start root id) ∧
        left.cache.stats.misses = start.stats.misses + left.computed.length ∧
        left.cache.stats.nodes = start.stats.nodes + left.computed.length ∧
        left.cache.stats.hits + left.computed.length =
          start.stats.hits + 1 + (left.computed.map pool.childCount).sum := by
  refine ⟨exact_afterUses, fun interpretation pool reachable root cache value left walked => ?_⟩
  rcases interpretation.walk_cases reachable.wellFormed root cache with
    ⟨result, added, next, advances, walkedNext⟩ | ⟨cause, next, -, failed⟩
  · rw [walkedNext] at walked
    cases walked
    have computed : left.computed = added := by rw [advances.computed, List.append_nil]
    rw [computed]
    refine ⟨fun owned => if_pos owned, advances.distinct, fun id => ?_, advances.misses,
      advances.size, advances.hits⟩
    rw [advances.reached]
    simp only [List.mem_singleton, exists_eq_left]
  · rw [failed] at walked
    cases walked

/-- A pool with the square 1 of a variable, the square 2 of the square, and the sum 3 of both. -/
def powers : Pool :=
  (Pool.empty 0).afterCalls
    [.var .float "x", .binary 0 .mul 0, .binary 1 .mul 1, .binary 2 .add 1]

/-- A walk from the sum of two squares, with a cache that has the first of them. -/
theorem counters_exact_powers :
    let cache := afterUses [.walk tracing powers 1]
    cache.stats.misses = cache.stats.nodes ∧
      ∃ value left, tracing.walk powers 3 { cache, computed := [] } = .ok value left ∧
        left.computed = [3, 2] ∧ (∀ id, id ∈ [3, 2] ↔ powers.Uncached cache 3 id) ∧
        left.cache.stats.misses = cache.stats.misses + 2 ∧
        left.cache.stats.nodes = cache.stats.nodes + 2 ∧
        left.cache.stats.hits = cache.stats.hits + 3 := by
  intro cache
  have reachable : powers.Reachable := ⟨0, _, rfl⟩
  have owned : cache.owner = some powers.session := by decide +kernel
  have children : ([3, 2].map powers.childCount).sum = 4 := by decide +kernel
  have succeeds : succeedsWith (tracing.walk powers 3) { cache, computed := [] }
      (fun _ left => left.computed == [3, 2]) = true := by decide +kernel
  obtain ⟨value, left, walked, computed⟩ := exists_of_succeedsWith succeeds
  obtain ⟨always, counts⟩ := @counters_exact TraceStep
  obtain ⟨isStart, -, reached, misses, nodes, hits⟩ :=
    counts tracing powers reachable 3 cache value left walked
  rw [isStart owned] at reached misses nodes hits
  rw [eq_of_beq computed] at reached misses nodes hits
  rw [children] at hits
  exact ⟨always _, value, left, walked, eq_of_beq computed, reached, misses, nodes,
    Nat.add_right_cancel hits⟩

end Cache

end Shading
