import Shading.Proofs.Agreement
import Shading.Proofs.Effect.Completeness
import Shading.Proofs.History.Collection

/-!
# What a sweep does not change

A sweep keeps the marked nodes with everything below them, and so every answer about such a node
stays the same (`Pool.sweep_answersAlike`). Marking the two programs of a built effect is enough to
emit them again: a program names its outputs, and their expressions are marked with it. The source
text of the second program was written with the texts of the first one in the cache, which a fresh
emitter does not have; it is the same text, because a cache does not show.
-/

namespace Shading

variable {pool before after middle : Pool} {id root : NodeId} {options : Glsl.EmitOptions}

/-! ### Building -/

/-- A program that was made can be asked for. -/
theorem Pool.WellFormed.program_of_shader (wf : pool.WellFormed) {program : Program}
    (ran : Pool.shader program pool = .ok id after) :
    after.WellFormed ∧ pool.Grows after ∧ after.program id = .ok program := by
  obtain ⟨⟨⟩, same, asked, -⟩ := exists_of_bind_ok ran
  obtain ⟨checked, -⟩ := Pool.query_eq_ok asked
  obtain ⟨made, made_after, ranAgain, wfAfter, grows, present⟩ := wf.makes_shader checked
  rw [ran] at ranAgain
  cases ranAgain
  exact ⟨wfAfter, grows, Pool.program_eq_ok_iff.mpr (Pool.node?_eq_some_iff.mpr ⟨none, present⟩)⟩

/-- A build that succeeds leaves its programs in the pool and gives their source texts. -/
theorem Effect.exists_stages_of_build {effect : Effect} {built : BuiltEffect}
    (wf : pool.WellFormed) (ran : effect.build options pool = .ok built after) :
    ∃ stages : Stages, after.WellFormed ∧ after.program built.vertex = .ok stages.vertex ∧
      after.program built.fragment = .ok stages.fragment ∧
      stages.sources options after = .ok built.sources := by
  obtain ⟨stages, bound, ranStages, rest⟩ := exists_of_bind_ok ran
  have wfBound := ((Pool.keeps_boundStages effect options.reserved).of_ok wf ranStages).1
  obtain ⟨vertex, first, ranVertex, restVertex⟩ := exists_of_bind_ok rest
  obtain ⟨wfFirst, -, isVertex⟩ := wfBound.program_of_shader ranVertex
  obtain ⟨fragment, second, ranFragment, restFragment⟩ := exists_of_bind_ok restVertex
  obtain ⟨wfSecond, grows, isFragment⟩ := wfFirst.program_of_shader ranFragment
  obtain ⟨sources, last, asked, ended⟩ := exists_of_bind_ok restFragment
  obtain ⟨written, rfl⟩ := Pool.query_eq_ok asked
  cases ended
  have vertexNode := grows.node?_eq (Pool.program_eq_ok_iff.mp isVertex)
  exact ⟨stages, wfSecond, Pool.program_eq_ok_iff.mpr vertexNode, isFragment, written⟩

/-- A new emitter writes for a node what is written for its program with an empty cache. -/
theorem Glsl.Emitter.answerOf_emitNode {program : Program}
    (found : pool.program id = .ok program) :
    answerOf (Emitter.emitNode pool id) { options } =
      answerOf (Glsl.emit options pool program) .empty := by
  rw [← answerOf_emit, emitNode, found]
  rfl

/-- Both programs have the source texts that they were given with one cache, also from a fresh
emitter. -/
theorem Stages.answerOf_emitNode {stages : Stages} {vertex fragment : NodeId}
    {sources : String × String} (wf : pool.WellFormed)
    (isVertex : pool.program vertex = .ok stages.vertex)
    (isFragment : pool.program fragment = .ok stages.fragment)
    (written : stages.sources options pool = .ok sources) :
    answerOf (Glsl.Emitter.emitNode pool vertex) { options } = .ok sources.1 ∧
      answerOf (Glsl.Emitter.emitNode pool fragment) { options } = .ok sources.2 := by
  rw [Glsl.Emitter.answerOf_emitNode isVertex, Glsl.Emitter.answerOf_emitNode isFragment]
  have printing := Glsl.textual.transparent_run wf
  have fresh := Cache.serves_empty Glsl.textual pool
  unfold Stages.sources at written
  dsimp only at written
  split at written
  next both last ran =>
    cases written
    obtain ⟨vertexSource, cache, ranVertex, rest⟩ := exists_of_bind_ok ran
    obtain ⟨fragmentSource, same, ranFragment, ended⟩ := exists_of_bind_ok rest
    cases ended
    have serves := (Glsl.transparent_emit printing options stages.vertex).keeps .empty fresh
    rw [stateLeftBy_of_ok ranVertex] at serves
    have present : ∀ expr ∈ stages.fragment.outputs.values, pool.contains expr = true :=
      fun expr => wf.child_contains (Pool.program_eq_ok_iff.mp isFragment)
    have alike := (Glsl.transparent_emit printing options stages.fragment).same present fresh serves
    refine ⟨by rw [answerOf, ranVertex], ?_⟩
    rw [alike, answerOf, ranFragment]
  next => cases written

/-! ### Marking -/

namespace Pool

/-- Marking a node of the pool succeeds. -/
theorem WellFormed.exists_mark (wf : pool.WellFormed) (present : pool.contains root = true) :
    ∃ after, Pool.mark root pool = .ok () after := by
  rw [Pool.mark, wf.preOrder_eq present]
  exact ⟨_, rfl⟩

/-- Marking changes no node. -/
theorem agreesOn_of_mark (ran : Pool.mark root pool = .ok () after) :
    pool.AgreesOn after fun _ => True := by
  obtain ⟨order, -, rfl⟩ := exists_preOrder_of_mark ran
  exact ⟨rfl, fun _ _ => rfl, fun _ _ _ _ => trivial⟩

/-- A program is in the pool. -/
theorem contains_of_program {program : Program} (found : pool.program id = .ok program) :
    pool.contains id = true := by
  obtain ⟨type, present⟩ := node?_eq_some_iff.mp (program_eq_ok_iff.mp found)
  exact contains_of_present present

/-- Two nodes of a pool can be marked, and a sweep then changes no answer about them. -/
theorem WellFormed.exists_marks (wf : pool.WellFormed) {one other : NodeId}
    (present : pool.contains one = true) (otherPresent : pool.contains other = true) :
    ∃ first second, Pool.mark one pool = .ok () first ∧ Pool.mark other first = .ok () second ∧
      ∀ id ∈ [one, other], pool.AnswersAlike second.swept id := by
  obtain ⟨first, ranFirst⟩ := wf.exists_mark present
  have wfFirst : first.WellFormed := leftBy_of_ok ranFirst ▸ (wf.mark one).1
  have agreesFirst := agreesOn_of_mark ranFirst
  have presentFirst : first.contains other = true :=
    (agreesFirst.contains_eq trivial).trans otherPresent
  obtain ⟨second, ranSecond⟩ := wfFirst.exists_mark presentFirst
  have wfSecond : second.WellFormed := leftBy_of_ok ranSecond ▸ (wfFirst.mark other).1
  have agrees := agreesFirst.trans ((agreesOn_of_mark ranSecond).trans wfSecond.agreesOn_swept)
  have marked : ∀ id ∈ [one, other], id ∈ second.marked := by
    intro id member
    rw [wfFirst.mem_marked_of_mark ranSecond, wf.mem_marked_of_mark ranFirst]
    rcases List.mem_pair.mp member with rfl | rfl
    · exact Or.inl (Or.inr .refl)
    · exact Or.inr .refl
  exact ⟨first, second, ranFirst, ranSecond, fun id member =>
    agrees.answersAlike wf (marked id member)⟩

/-- A sweep changes no answer about what is below a root that was marked since the sweep before it.
After an effect was built, marking its two programs keeps their source texts. -/
theorem sweep_answersAlike (session : Nat) (calls : List Call) (now : Nat) :
    (∃ removed after, Pool.sweep (snapshot session calls now) = .ok removed after ∧
      ∀ root id, MarkedSince session calls now root →
        (snapshot session calls now).Below root id →
          (snapshot session calls now).AnswersAlike after id) ∧
      ∀ (effect : Effect) (options : Glsl.EmitOptions) (built : BuiltEffect) (middle : Pool),
        effect.build options (snapshot session calls now) = .ok built middle →
          ∃ first second removed after, Pool.mark built.vertex middle = .ok () first ∧
            Pool.mark built.fragment first = .ok () second ∧
            Pool.sweep second = .ok removed after ∧
            answerOf (Glsl.Emitter.emitNode after built.vertex) { options } =
              .ok built.vertexSource ∧
            answerOf (Glsl.Emitter.emitNode after built.fragment) { options } =
              .ok built.fragmentSource := by
  have wf := wellFormed_snapshot session calls now
  refine ⟨⟨_, _, rfl, fun root id since below => ?_⟩, fun effect options built middle ran => ?_⟩
  · have marked := (mem_marked_snapshot session calls now id).mpr ⟨root, since, below⟩
    exact wf.agreesOn_swept.answersAlike wf marked
  · obtain ⟨stages, wfMiddle, isVertex, isFragment, written⟩ :=
      effect.exists_stages_of_build wf ran
    obtain ⟨vertexText, fragmentText⟩ :=
      Stages.answerOf_emitNode wfMiddle isVertex isFragment written
    obtain ⟨first, second, ranFirst, ranSecond, alike⟩ :=
      wfMiddle.exists_marks (contains_of_program isVertex) (contains_of_program isFragment)
    refine ⟨first, second, _, _, ranFirst, ranSecond, rfl, ?_, ?_⟩
    · rw [answerOf, (alike _ List.mem_cons_self).emitNode, ← answerOf, vertexText]
      rfl
    · rw [answerOf, (alike _ (List.mem_cons_of_mem _ List.mem_cons_self)).emitNode, ← answerOf,
        fragmentText]
      rfl

/-- A history that makes an effect of a shared uniform, with position 5 and color 8, and marks a
part of the color. -/
def markedPart : List Call :=
  [.var .float "x", .var .float "y", .qualify .attr 0, .qualify .uniform 1, .binary 2 .mul 3,
    .qualify .fragment 4, .binary 5 .add 3, .constant .float [⟨0x3FE0000000000000⟩],
    .binary 6 .sub 7, .mark 6]

/-- A part of a color that was marked answers as before the sweep, and a built effect is emitted
again. -/
theorem sweep_answersAlike_markedPart :
    MarkedSince 0 markedPart 10 6 ∧ (snapshot 0 markedPart 10).Below 6 4 ∧
      (∃ removed after, Pool.sweep (snapshot 0 markedPart 10) = .ok removed after ∧
        (snapshot 0 markedPart 10).AnswersAlike after 4) ∧
      ∃ built middle first second removed after,
        Effect.build ⟨5, 8⟩ {} (snapshot 0 markedPart 10) = .ok built middle ∧
          Pool.mark built.vertex middle = .ok () first ∧
          Pool.mark built.fragment first = .ok () second ∧ Pool.sweep second = .ok removed after ∧
          answerOf (Glsl.Emitter.emitNode after built.vertex) {} = .ok built.vertexSource ∧
          answerOf (Glsl.Emitter.emitNode after built.fragment) {} = .ok built.fragmentSource := by
  have wf := wellFormed_snapshot 0 markedPart 9
  have present : (snapshot 0 markedPart 9).contains 6 = true := by decide +kernel
  obtain ⟨after, ran⟩ := wf.exists_mark present
  have since : MarkedSince 0 markedPart 10 6 :=
    ⟨9, by decide, ⟨.mark 6, rfl, .root ran⟩, fun between later inside => by omega⟩
  have sum : (snapshot 0 markedPart 10).Child 6 5 :=
    ⟨.binary 5 .add 3, by decide +kernel, by decide⟩
  have varying : (snapshot 0 markedPart 10).Child 5 4 :=
    ⟨.qualified .fragment 4, by decide +kernel, by decide⟩
  have below : (snapshot 0 markedPart 10).Below 6 4 := .head sum (.single varying)
  have builds : succeedsWith (Effect.build ⟨5, 8⟩ {}) (snapshot 0 markedPart 10)
      (fun _ _ => true) = true := by decide +kernel
  obtain ⟨built, middle, ranBuild, -⟩ := exists_of_succeedsWith builds
  obtain ⟨⟨removed, swept, ranSweep, alike⟩, emits⟩ := sweep_answersAlike 0 markedPart 10
  obtain ⟨first, second, count, last, emitted⟩ := emits ⟨5, 8⟩ {} built middle ranBuild
  exact ⟨since, below, ⟨removed, swept, ranSweep, alike 6 4 since below⟩, built, middle, first,
    second, count, last, ranBuild, emitted⟩

end Pool

end Shading
