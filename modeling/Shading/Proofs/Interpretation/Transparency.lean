import Shading.Glsl.Source
import Shading.Proofs.Interpretation.Walk
import Shading.Proofs.Table

/-!
# Answers that do not show the state

An operation is transparent for a property of states when it keeps the property and its answer is
the same from every state with it. Transparent operations can be put in sequence, and if texts of
expressions are transparent for a property of caches, so are the source texts of programs.
-/

namespace Shading

variable {α β σ τ : Type} {good : σ → Prop} {sure other : Prop}
  {operation : EStateM Error σ α} {next : α → EStateM Error σ β} {state middle : σ}

/-- The operation keeps a property of states. If it is sure that the operation finds what it needs,
the answer is the same from every state that has the property. -/
structure Transparent (good : σ → Prop) (sure : Prop) (operation : EStateM Error σ α) : Prop where
  keeps : ∀ state, good state → good (stateLeftBy operation state)
  fixed : sure → ∃ answer, ∀ state, good state → answerOf operation state = answer

/-- The state wraps another one that has a property. -/
def Wraps (wrap : σ → τ) (good : σ → Prop) (state : τ) : Prop :=
  ∃ inner, state = wrap inner ∧ good inner

/-- A wrapped state that has a property has a weaker one. -/
theorem Wraps.imp {wrap : σ → τ} {other : σ → Prop} {state : τ} (wraps : Wraps wrap good state)
    (implies : ∀ inner, good inner → other inner) : Wraps wrap other state := by
  obtain ⟨inner, isState, isGood⟩ := wraps
  exact ⟨inner, isState, implies inner isGood⟩

/-! ### Sequences -/

/-- An operation that answers with a result succeeds. -/
theorem answerOf_eq_ok {result : α} (answered : answerOf operation state = .ok result) :
    ∃ middle, operation state = .ok result middle := by
  unfold answerOf at answered
  split at answered
  next found middle ran =>
    cases answered
    exact ⟨middle, ran⟩
  next => cases answered

/-- An operation that answers with an error fails. -/
theorem answerOf_eq_error {cause : Error} (answered : answerOf operation state = .error cause) :
    ∃ middle, operation state = .error cause middle := by
  unfold answerOf at answered
  split at answered
  next => cases answered
  next found middle ran =>
    cases answered
    exact ⟨middle, ran⟩

theorem stateLeftBy_of_ok {result : α} (ran : operation state = .ok result middle) :
    stateLeftBy operation state = middle := by
  rw [stateLeftBy, ran]

theorem stateLeftBy_of_error {cause : Error} (ran : operation state = .error cause middle) :
    stateLeftBy operation state = middle := by
  rw [stateLeftBy, ran]

namespace Transparent

/-- A transparent operation answers alike from all good states. -/
theorem same (transparent : Transparent good sure operation) (certain : sure) {first second : σ}
    (firstGood : good first) (secondGood : good second) :
    answerOf operation first = answerOf operation second := by
  obtain ⟨answer, fixed⟩ := transparent.fixed certain
  rw [fixed first firstGood, fixed second secondGood]

/-- An operation stays transparent if more is made sure of. -/
theorem mono (transparent : Transparent good sure operation) (weaker : other → sure) :
    Transparent good other operation :=
  ⟨transparent.keeps, fun certain => transparent.fixed (weaker certain)⟩

theorem pure (good : σ → Prop) (sure : Prop) (result : α) :
    Transparent good sure (Pure.pure result) where
  keeps _ isGood := isGood
  fixed _ := ⟨.ok result, fun _ _ => rfl⟩

/-- A sequence of transparent operations is transparent. -/
theorem bind (first : Transparent good sure operation)
    (later : ∀ result, Transparent good sure (next result)) :
    Transparent good sure (operation >>= next) where
  keeps state isGood := by
    have kept := first.keeps state isGood
    cases ran : operation state with
    | ok result middle =>
        rw [stateLeftBy_of_ok ran] at kept
        rw [stateLeftBy, bind_of_ok ran]
        exact (later result).keeps middle kept
    | error cause middle =>
        rw [stateLeftBy_of_error ran] at kept
        rwa [stateLeftBy, bind_of_error ran]
  fixed certain := by
    -- What comes next depends on the first answer only, so one case split serves all states.
    obtain ⟨answer, same⟩ := first.fixed certain
    cases answer with
    | error cause =>
        refine ⟨.error cause, fun state isGood => ?_⟩
        obtain ⟨middle, ran⟩ := answerOf_eq_error (same state isGood)
        rw [answerOf, bind_of_error ran]
    | ok result =>
        obtain ⟨last, sameLater⟩ := (later result).fixed certain
        refine ⟨last, fun state isGood => ?_⟩
        obtain ⟨middle, ran⟩ := answerOf_eq_ok (same state isGood)
        have kept := first.keeps state isGood
        rw [stateLeftBy_of_ok ran] at kept
        rw [answerOf, bind_of_ok ran]
        exact sameLater middle kept

/-- What is asked without the state is known in what follows. -/
theorem ofExcept_bind {asked : Except Error α}
    (later : ∀ result, asked = .ok result → Transparent good sure (next result)) :
    Transparent good sure (MonadExcept.ofExcept asked >>= next) := by
  cases asked with
  | error cause => exact ⟨fun _ isGood => isGood, fun _ => ⟨.error cause, fun _ _ => rfl⟩⟩
  | ok result => exact later result rfl

/-- An operation on a part of a state. -/
theorem wrapped {wrap : σ → τ} (transparent : Transparent good sure operation)
    {outer : EStateM Error τ α}
    (works : ∀ inner, outer (wrap inner) =
      match operation inner with
      | .ok result left => .ok result (wrap left)
      | .error cause left => .error cause (wrap left)) :
    Transparent (Wraps wrap good) sure outer where
  keeps := by
    rintro _ ⟨inner, rfl, isGood⟩
    refine ⟨stateLeftBy operation inner, ?_, transparent.keeps inner isGood⟩
    rw [stateLeftBy, works, stateLeftBy]
    cases operation inner <;> rfl
  fixed certain := by
    obtain ⟨answer, same⟩ := transparent.fixed certain
    refine ⟨answer, ?_⟩
    rintro _ ⟨inner, rfl, isGood⟩
    rw [← same inner isGood, answerOf, works, answerOf]
    cases operation inner <;> rfl

end Transparent

/-! ### Source texts -/

namespace Glsl

/-- A built-in output is one of the outputs of the program. -/
theorem output_of_builtinOutput {options : EmitOptions} {program : Program}
    {builtin : Option (Builtin × NodeId)} (found : builtinOutput options program = .ok builtin) :
    ∀ output ∈ builtin, output.2 ∈ program.outputs.values := by
  unfold builtinOutput at found
  split at found
  next =>
    cases found
    nofun
  next =>
    split at found
    next expr isOutput =>
      cases found
      rintro _ ⟨⟩
      exact List.mem_map_of_mem (Table.get?_eq_some_iff.mp isOutput)
    next => cases found

variable {pool : Pool} {good : Cache String → Prop}
  (printing : ∀ root, Transparent good (pool.contains root = true) (textual.run pool root))

include printing

/-- Writing the lines of outputs is transparent. -/
theorem transparent_outputLines (options : EmitOptions) (stage : Stage)
    (entries : List (String × NodeId)) :
    Transparent good (∀ entry ∈ entries, pool.contains entry.2 = true)
      (outputLines options pool stage entries) := by
  induction entries with
  | nil => exact .pure _ _ _
  | cons entry rest ih =>
      obtain ⟨name, expr⟩ := entry
      rw [outputLines]
      split
      · exact ih.mono fun present entry member =>
          present entry (List.mem_cons_of_mem _ member)
      · refine .ofExcept_bind fun type _ => ?_
        refine .bind ((printing expr).mono fun present => ?_) fun text => ?_
        · exact present (name, expr) List.mem_cons_self
        refine .bind (ih.mono fun present entry member => ?_) fun lines => .pure _ _ _
        exact present entry (List.mem_cons_of_mem _ member)

/-- Writing the lines of a built-in output is transparent. -/
theorem transparent_builtinLines (builtin : Option (Builtin × NodeId)) :
    Transparent good (∀ output ∈ builtin, pool.contains output.2 = true)
      (builtinLines pool builtin) := by
  cases builtin with
  | none => exact .pure _ _ _
  | some output =>
      exact .bind ((printing output.2).mono fun present => present output rfl) fun text =>
        .pure _ _ _

/-- If all outputs of a program are in the pool, its source text does not depend on the cache. -/
theorem transparent_emit (options : EmitOptions) (program : Program) :
    Transparent good (∀ expr ∈ program.outputs.values, pool.contains expr = true)
      (emit options pool program) := by
  refine .ofExcept_bind fun builtin found => ?_
  refine .bind ((transparent_outputLines printing options program.stage _).mono ?_) fun lines => ?_
  · intro present entry member
    exact present entry.2 (List.mem_map_of_mem member)
  refine .bind ((transparent_builtinLines printing builtin).mono ?_) fun last => .pure _ _ _
  intro present output member
  exact present output.2 (output_of_builtinOutput found output member)

/-- Emitting is transparent if writing texts is. -/
theorem transparent_emitter (options : EmitOptions) (program : Program) :
    Transparent (Wraps (Emitter.mk options) good)
      (∀ expr ∈ program.outputs.values, pool.contains expr = true) (Emitter.emit pool program) := by
  refine (transparent_emit printing options program).wrapped fun cache => ?_
  rw [Emitter.emit]
  cases emit options pool program cache <;> rfl

/-- A program that is a node of the pool has all its outputs there. -/
theorem transparent_emitNode (wf : pool.WellFormed) (options : EmitOptions) (id : NodeId) :
    Transparent (Wraps (Emitter.mk options) good) True (Emitter.emitNode pool id) := by
  refine .ofExcept_bind fun program found => (transparent_emitter printing options program).mono ?_
  intro _ expr member
  exact wf.child_contains (Pool.program_eq_ok_iff.mp found) member

end Glsl

end Shading
