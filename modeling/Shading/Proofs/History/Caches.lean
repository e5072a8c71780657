import Mathlib.Logic.Function.Basic
import Shading.Evaluation.Evaluator
import Shading.Proofs.Interpretation.Transparency
import Shading.Proofs.Reachable

/-!
# Caches over a history

An evaluator, a printer and an emitter serve several pools while these change. Each keeps one cache
through all of it, also through requests that fail halfway. The cache is right for the pool that
owns it at any moment (`Cache.Sound`): calls on a pool give no identity another node, a cache that
is asked about another pool starts afresh, and so does one whose variables change. So no answer
about a node of a pool shows what was asked before (`Workspace.caches_invisible`).
-/

namespace Shading

variable {α : Type} {interpretation : Interpretation α} {cache : Cache α} {pools : Nat → Pool}

/-- The cache is right for the pool that owns it, if any. Pools are told apart by their sessions. -/
def Cache.Sound (cache : Cache α) (interpretation : Interpretation α) (pools : Nat → Pool) : Prop :=
  ∀ session, cache.owner = some session → cache.Holds interpretation (pools session)

/-- The evaluator has given values of variables, and its cache is right under them. -/
def Evaluator.Sound (bindings : Bindings) (pools : Nat → Pool) : Evaluator → Prop :=
  Wraps (Evaluator.mk bindings) (Cache.Sound · (numerical bindings) pools)

/-- The emitter has given options, and its cache is right. -/
def Glsl.Emitter.Sound (options : EmitOptions) (pools : Nat → Pool) : Emitter → Prop :=
  Wraps (Emitter.mk options) (Cache.Sound · textual pools)

/-- Pools by their sessions, with one evaluator, one printer and one emitter for all of them. -/
structure Workspace where
  pools : Nat → Pool
  evaluator : Evaluator
  printer : Cache String
  emitter : Glsl.Emitter

/-- A request to a workspace. -/
inductive Request where
  | call (session : Nat) (call : Call)
  | bind (name : String) (values : List Float)
  | evaluate (session : Nat) (root : NodeId)
  | print (session : Nat) (root : NodeId)
  | emit (session : Nat) (program : Program)
  | emitNode (session : Nat) (id : NodeId)

/-- The values of variables after a request. -/
def Request.rebind (bindings : Bindings) : Request → Bindings
  | .bind name values => bindings.insert name values
  | _ => bindings

namespace Workspace

/-- Empty pools and empty caches. -/
def start (bindings : Bindings) (options : Glsl.EmitOptions) : Workspace where
  pools := Pool.empty
  evaluator := { bindings }
  printer := .empty
  emitter := { options }

/-- The workspace that a request leaves, whether or not it fails. -/
def serve (workspace : Workspace) : Request → Workspace
  | .call session call =>
    { workspace with
      pools := Function.update workspace.pools session ((workspace.pools session).afterCall call) }
  | .bind name values => { workspace with evaluator := workspace.evaluator.bind name values }
  | .evaluate session root =>
    { workspace with
      evaluator :=
        stateLeftBy (Evaluator.evaluate (workspace.pools session) root) workspace.evaluator }
  | .print session root =>
    { workspace with
      printer := stateLeftBy (Glsl.textual.run (workspace.pools session) root) workspace.printer }
  | .emit session program =>
    { workspace with
      emitter :=
        stateLeftBy (Glsl.Emitter.emit (workspace.pools session) program) workspace.emitter }
  | .emitNode session id =>
    { workspace with
      emitter :=
        stateLeftBy (Glsl.Emitter.emitNode (workspace.pools session) id) workspace.emitter }

/-- The workspace after a sequence of requests. -/
def serveAll (workspace : Workspace) (requests : List Request) : Workspace :=
  requests.foldl serve workspace

/-- What holds between requests. -/
structure Coherent (workspace : Workspace) (bindings : Bindings) (options : Glsl.EmitOptions) :
    Prop where
  wellFormed : ∀ session, (workspace.pools session).WellFormed
  session : ∀ session, (workspace.pools session).session = session
  evaluator : workspace.evaluator.Sound bindings workspace.pools
  printer : workspace.printer.Sound Glsl.textual workspace.pools
  emitter : workspace.emitter.Sound options workspace.pools

end Workspace

/-! ### One cache -/

namespace Cache

/-- An empty cache is right for all pools. -/
theorem sound_empty (interpretation : Interpretation α) (pools : Nat → Pool) :
    (empty : Cache α).Sound interpretation pools :=
  nofun

/-- A cache that is right, attached to a pool, holds right results of that pool. -/
theorem Sound.attach (sound : cache.Sound interpretation pools) (session : Nat) :
    (cache.attach session).Holds interpretation (pools session) := by
  unfold Cache.attach
  split
  next owned => exact sound session owned
  next => exact holds_empty _ _ _

/-- A result stays right while nodes are added and collected, because an identity that is still
there has the tree it had. -/
theorem Holds.persist {before after : Pool} (holds : cache.Holds interpretation before)
    (wf : before.WellFormed) (wfAfter : after.WellFormed) (persists : before.Persists after) :
    cache.Holds interpretation after where
  used id value found := Nat.lt_of_lt_of_le (holds.used id value found) persists.size
  correct id value found present := by
    obtain ⟨entry, isEntry⟩ := Option.isSome_iff_exists.mp present
    have old := persists.entry id (holds.used id value found) entry isEntry
    obtain ⟨tree, type, unfolded, interpreted⟩ :=
      holds.correct id value found (Pool.contains_of_present old)
    exact ⟨tree, type, persists.tree?_eq wf wfAfter unfolded present, interpreted⟩

/-- A cache stays right when a call is made on one of the pools. -/
theorem Sound.call (sound : cache.Sound interpretation pools) {session : Nat}
    (wf : (pools session).WellFormed) (call : Call) :
    cache.Sound interpretation
      (Function.update pools session ((pools session).afterCall call)) := by
  intro owner owned
  by_cases same : owner = session
  · rw [same, Function.update_self]
    obtain ⟨wfAfter, persists⟩ := wf.afterCall call
    exact (sound session (same ▸ owned)).persist wf wfAfter persists
  · rw [Function.update_of_ne same]
    exact sound owner owned

end Cache

/-- A new evaluator is sound. -/
theorem Evaluator.sound_new (bindings : Bindings) (pools : Nat → Pool) :
    Evaluator.Sound bindings pools { bindings } :=
  ⟨.empty, rfl, Cache.sound_empty _ _⟩

/-- An evaluator stays sound when a variable is bound, because its cache is cleared. -/
theorem Evaluator.Sound.bind {bindings : Bindings} {evaluator : Evaluator}
    (sound : evaluator.Sound bindings pools) (name : String) (values : List Float) :
    (evaluator.bind name values).Sound (bindings.insert name values) pools := by
  obtain ⟨cache, isEvaluator, -⟩ := sound
  rw [isEvaluator]
  exact sound_new _ _

/-- A new emitter is sound. -/
theorem Glsl.Emitter.sound_new (options : EmitOptions) (pools : Nat → Pool) :
    Emitter.Sound options pools { options } :=
  ⟨.empty, rfl, Cache.sound_empty _ _⟩

/-! ### One request -/

/-- A run with a cache that is right answers as with any other such cache. -/
theorem transparent_run (wf : ∀ session, (pools session).WellFormed)
    (numbered : ∀ session, (pools session).session = session)
    (interpretation : Interpretation α) (session : Nat) (root : NodeId) :
    Transparent (Cache.Sound · interpretation pools) ((pools session).contains root = true)
      (interpretation.run (pools session) root) := by
  have attached (cache : Cache α) (sound : cache.Sound interpretation pools) :
      (cache.attach (pools session).session).Holds interpretation (pools session) := by
    rw [numbered]
    exact sound.attach session
  refine ⟨fun cache sound => ?_, fun present => ?_⟩
  · obtain ⟨keeps, holds, _⟩ :=
      Interpretation.run_spec (wf session) (attached cache sound) root
    intro owner owned
    rw [keeps.owner, Cache.owner_attach, numbered] at owned
    cases owned
    exact holds
  · refine ⟨(pools session).interpret interpretation root, fun cache sound => ?_⟩
    exact (Interpretation.run_spec (wf session) (attached cache sound) root).2.2 present

/-- No call changes the session of a pool. -/
theorem Pool.WellFormed.session_afterCall {pool : Pool} (wf : pool.WellFormed) (call : Call) :
    (pool.afterCall call).session = pool.session := by
  by_cases isSweep : call = .sweep
  · rw [isSweep]
    rfl
  · exact (wf.extends_afterCall isSweep).2.session

namespace Workspace

variable {workspace : Workspace} {bindings : Bindings} {options : Glsl.EmitOptions}

/-- A new workspace is coherent. -/
theorem coherent_start (bindings : Bindings) (options : Glsl.EmitOptions) :
    (start bindings options).Coherent bindings options where
  wellFormed := Pool.wellFormed_empty
  session _ := rfl
  evaluator := Evaluator.sound_new _ _
  printer := Cache.sound_empty _ _
  emitter := Glsl.Emitter.sound_new _ _

namespace Coherent

/-- What an evaluator has cached does not show in its answers. -/
theorem transparent_evaluate (coherent : workspace.Coherent bindings options) (session : Nat)
    (root : NodeId) :
    Transparent (Evaluator.Sound bindings workspace.pools)
      ((workspace.pools session).contains root = true)
      (Evaluator.evaluate (workspace.pools session) root) := by
  have run := transparent_run coherent.wellFormed coherent.session (numerical bindings) session root
  refine run.wrapped fun cache => ?_
  rw [Evaluator.evaluate]
  cases (numerical bindings).run (workspace.pools session) root cache <;> rfl

/-- What a printer has cached does not show in its answers. -/
theorem transparent_print (coherent : workspace.Coherent bindings options) (session : Nat)
    (root : NodeId) :
    Transparent (Cache.Sound · Glsl.textual workspace.pools)
      ((workspace.pools session).contains root = true)
      (Glsl.textual.run (workspace.pools session) root) :=
  transparent_run coherent.wellFormed coherent.session Glsl.textual session root

/-- What an emitter has cached does not show when it emits a program. -/
theorem transparent_emit (coherent : workspace.Coherent bindings options) (session : Nat)
    (program : Program) :
    Transparent (Glsl.Emitter.Sound options workspace.pools)
      (∀ expr ∈ program.outputs.values, (workspace.pools session).contains expr = true)
      (Glsl.Emitter.emit (workspace.pools session) program) :=
  Glsl.transparent_emitter (coherent.transparent_print session) options program

/-- What an emitter has cached does not show when it emits a node. -/
theorem transparent_emitNode (coherent : workspace.Coherent bindings options) (session : Nat)
    (id : NodeId) :
    Transparent (Glsl.Emitter.Sound options workspace.pools) True
      (Glsl.Emitter.emitNode (workspace.pools session) id) :=
  Glsl.transparent_emitNode (coherent.transparent_print session) (coherent.wellFormed session)
    options id

/-- A call on a pool leaves every cache right. -/
theorem call (coherent : workspace.Coherent bindings options) (session : Nat) (call : Call) :
    (workspace.serve (.call session call)).Coherent bindings options where
  wellFormed := by
    refine (Function.forall_update_iff _ fun _ (pool : Pool) => pool.WellFormed).mpr ⟨?_, ?_⟩
    · exact ((coherent.wellFormed session).afterCall call).1
    · exact fun other _ => coherent.wellFormed other
  session := by
    refine (Function.forall_update_iff _ fun number (pool : Pool) =>
      pool.session = number).mpr ⟨?_, ?_⟩
    · rw [(coherent.wellFormed session).session_afterCall, coherent.session]
    · exact fun other _ => coherent.session other
  evaluator := coherent.evaluator.imp fun _ sound => sound.call (coherent.wellFormed session) call
  printer := coherent.printer.call (coherent.wellFormed session) call
  emitter := coherent.emitter.imp fun _ sound => sound.call (coherent.wellFormed session) call

/-- A workspace stays coherent when a request is served. -/
theorem serve (coherent : workspace.Coherent bindings options) (request : Request) :
    (workspace.serve request).Coherent (request.rebind bindings) options := by
  cases request with
  | call session call => exact coherent.call session call
  | bind name values =>
      have bound := coherent.evaluator.bind name values
      exact ⟨coherent.wellFormed, coherent.session, bound, coherent.printer, coherent.emitter⟩
  | evaluate session root =>
      have kept := (coherent.transparent_evaluate session root).keeps _ coherent.evaluator
      exact ⟨coherent.wellFormed, coherent.session, kept, coherent.printer, coherent.emitter⟩
  | print session root =>
      have kept := (coherent.transparent_print session root).keeps _ coherent.printer
      exact ⟨coherent.wellFormed, coherent.session, coherent.evaluator, kept, coherent.emitter⟩
  | emit session program =>
      have kept := (coherent.transparent_emit session program).keeps _ coherent.emitter
      exact ⟨coherent.wellFormed, coherent.session, coherent.evaluator, coherent.printer, kept⟩
  | emitNode session id =>
      have kept := (coherent.transparent_emitNode session id).keeps _ coherent.emitter
      exact ⟨coherent.wellFormed, coherent.session, coherent.evaluator, coherent.printer, kept⟩

/-- A workspace stays coherent through a sequence of requests. -/
theorem serveAll (coherent : workspace.Coherent bindings options) (requests : List Request) :
    (workspace.serveAll requests).Coherent (requests.foldl Request.rebind bindings) options := by
  induction requests generalizing workspace bindings with
  | nil => exact coherent
  | cons request rest ih => exact ih (coherent.serve request)

end Coherent

/-- Whatever was asked before, and whether or not it failed: what an evaluator, a printer and an
emitter answer about nodes of a pool is what new ones answer, with the current values of variables
and the same options. -/
theorem caches_invisible (bindings : Bindings) (options : Glsl.EmitOptions)
    (requests : List Request) (session : Nat) :
    let workspace := (start bindings options).serveAll requests
    let pool := workspace.pools session
    (∀ root, pool.contains root = true →
      answerOf (Evaluator.evaluate pool root) workspace.evaluator =
        answerOf (Evaluator.evaluate pool root)
          { bindings := requests.foldl Request.rebind bindings }) ∧
    (∀ root, pool.contains root = true →
      answerOf (Glsl.textual.run pool root) workspace.printer =
        answerOf (Glsl.textual.run pool root) .empty) ∧
    (∀ program : Program, (∀ expr ∈ program.outputs.values, pool.contains expr = true) →
      answerOf (Glsl.Emitter.emit pool program) workspace.emitter =
        answerOf (Glsl.Emitter.emit pool program) { options }) ∧
    ∀ id, answerOf (Glsl.Emitter.emitNode pool id) workspace.emitter =
      answerOf (Glsl.Emitter.emitNode pool id) { options } := by
  intro workspace pool
  have coherent := (coherent_start bindings options).serveAll requests
  refine ⟨fun root present => ?_, fun root present => ?_, fun program present => ?_, fun id => ?_⟩
  · exact (coherent.transparent_evaluate session root).same present coherent.evaluator
      (Evaluator.sound_new _ _)
  · exact (coherent.transparent_print session root).same present coherent.printer
      (Cache.sound_empty _ _)
  · exact (coherent.transparent_emit session program).same present coherent.emitter
      (Glsl.Emitter.sound_new _ _)
  · exact (coherent.transparent_emitNode session id).same trivial coherent.emitter
      (Glsl.Emitter.sound_new _ _)

/-- A negation is evaluated in vain and again after its variable got a value, its text is kept, and
it is collected and made again under another identity, with another pool in between. -/
def renewedNegation : List Request :=
  [.call 1 (.var .float "x"), .call 1 (.unary .neg 0), .evaluate 1 1, .bind "x" [2.0],
    .evaluate 1 1, .print 1 1, .call 2 (.var .vec4 "y"), .evaluate 2 0, .call 1 (.mark 0),
    .call 1 .sweep, .call 1 (.unary .neg 0)]

/-- Nothing cached shows after a failed evaluation, a collection and a use of another pool. -/
theorem caches_invisible_renewedNegation :
    let workspace := (start .empty {}).serveAll renewedNegation
    let pool := workspace.pools 1
    let program : Program := { stage := .fragment, outputs := Table.empty.insert "o_Color" 2 }
    workspace.evaluator.cache.owner = some 2 ∧ pool.contains 1 = false ∧
      workspace.printer.results.contains 1 = true ∧ pool.contains 2 = true ∧
      answerOf (Evaluator.evaluate pool 2) workspace.evaluator =
        answerOf (Evaluator.evaluate pool 2)
          { bindings := renewedNegation.foldl Request.rebind .empty } ∧
      answerOf (Glsl.textual.run pool 2) workspace.printer =
        answerOf (Glsl.textual.run pool 2) .empty ∧
      answerOf (Glsl.Emitter.emit pool program) workspace.emitter =
        answerOf (Glsl.Emitter.emit pool program) {} := by
  intro workspace pool program
  have owned : workspace.evaluator.cache.owner = some 2 := by decide +kernel
  have collected : pool.contains 1 = false := by decide +kernel
  have stale : workspace.printer.results.contains 1 = true := by decide +kernel
  have renewed : pool.contains 2 = true := by decide +kernel
  have outputs : ∀ expr ∈ program.outputs.values, pool.contains expr = true := by decide +kernel
  obtain ⟨evaluates, prints, emits, -⟩ := caches_invisible .empty {} renewedNegation 1
  exact ⟨owned, collected, stale, renewed, evaluates 2 renewed, prints 2 renewed,
    emits program outputs⟩

end Workspace

end Shading
