import Shading.Proofs.History.Canonicity
import Shading.Proofs.Tree.Signature

/-!
# Signatures identify structures

The signatures of the nodes below a root are written one after the other, each from those of its
children. What is written for a node is its unfolding, written out in one go
(`Pool.WellFormed.signature_eq`). An unfolding is read back from its signature, so nodes of one pool
have the same signature only if they are the same, and nodes of two pools only if they stand for the
same.
-/

namespace Shading

variable {undefined : Binary64} {rest others : List Char}

/-- The names of the stages are words. -/
theorem Stage.isWord_name (stage : Stage) : isWord stage.name = true := by
  cases stage <;> decide

/-- No expression has the heading of a program. -/
theorem Heading.program_ne_heading (tree : Tree) : Heading.program ≠ tree.heading := by
  cases tree <;> exact nofun

/-! ### Lists in the signature of a program -/

namespace Interface

variable {interface other : Interface} {left right : List Interface}

/-- The signature of a declaration, character by character. -/
theorem toList_signature (interface : Interface) :
    interface.signature.toList = interface.name.toList ++ ':' :: interface.type.name.toList := by
  simp [signature]

/-- Declarations are told apart by their signatures. -/
theorem told_signature (inName : isWord interface.name = true)
    (inOther : isWord other.name = true) :
    Told (fun interface : Interface => interface.signature.toList) ']' interface other := by
  intro _ _ goesOn otherGoesOn same
  obtain ⟨char, after, rfl, ends⟩ := goesOn.exists_separator (by decide)
  obtain ⟨next, later, rfl, otherEnds⟩ := otherGoesOn.exists_separator (by decide)
  simp only [toList_signature, List.append_assoc, List.cons_append] at same
  obtain ⟨sameName, -, types⟩ := word_append_inj inName inOther (by decide) (by decide) same
  obtain ⟨sameType, rfl, rfl⟩ := word_append_inj interface.type.isWord_name other.type.isWord_name
    ends otherEnds types
  exact ⟨Interface.ext sameName (injective_of_found ValueType.ofName?_name sameType), rfl⟩

/-- Declarations are read up to the bracket that closes their list. -/
theorem signatures_append_inj (words : ∀ interface ∈ left ++ right, isWord interface.name = true)
    (same : [','].intercalate (left.map fun interface => interface.signature.toList) ++
        ']' :: rest =
      [','].intercalate (right.map fun interface => interface.signature.toList) ++
        ']' :: others) : left = right ∧ rest = others := by
  obtain ⟨inLeft, inRight⟩ := List.forall_mem_append.mp words
  refine intercalate_append_inj (fun interface member other isOther => told_signature
    (inLeft interface member) (inRight other isOther)) (by decide) ?_ same
  intro interface member rest
  rw [toList_signature, List.append_assoc]
  exact head?_word_append_ne (words interface member) (by decide) fun _ => by simp

end Interface

namespace Unfolding

variable {left right : List (String × Tree)}

/-- What an output of a program is, written out. -/
def outputSignature (output : String × Tree) : String :=
  output.1 ++ "=" ++ output.2.signature

/-- The signature of an output, character by character. -/
theorem toList_outputSignature (output : String × Tree) :
    (outputSignature output).toList = output.1.toList ++ '=' :: output.2.signature.toList := by
  simp [outputSignature]

/-- The name of an output is a word, and its tree can be read. -/
def OutputSpelled (undefined : Binary64) (output : String × Tree) : Prop :=
  isWord output.1 = true ∧ output.2.Spelled undefined

/-- Outputs are told apart by their signatures. -/
theorem told_outputSignature {output other : String × Tree}
    (spelled : OutputSpelled undefined output) (otherSpelled : OutputSpelled undefined other) :
    Told (fun output : String × Tree => (outputSignature output).toList) '\x7d' output other := by
  intro _ _ _ _ same
  simp only [toList_outputSignature, List.append_assoc, List.cons_append] at same
  obtain ⟨sameName, -, trees⟩ := word_append_inj spelled.1 otherSpelled.1 (by decide) (by decide)
    same
  obtain ⟨sameTree, sameRest⟩ := Tree.signature_append_inj spelled.2 otherSpelled.2 trees
  exact ⟨Prod.ext sameName sameTree, sameRest⟩

/-- Outputs are read up to the brace that closes their list. -/
theorem outputSignatures_append_inj (spelled : ∀ output ∈ left ++ right,
      OutputSpelled undefined output)
    (same : [','].intercalate (left.map fun output => (outputSignature output).toList) ++
        '\x7d' :: rest =
      [','].intercalate (right.map fun output => (outputSignature output).toList) ++
        '\x7d' :: others) : left = right ∧ rest = others := by
  obtain ⟨inLeft, inRight⟩ := List.forall_mem_append.mp spelled
  refine intercalate_append_inj (fun output member other isOther => told_outputSignature
    (inLeft output member) (inRight other isOther)) (by decide) ?_ same
  intro output member rest
  rw [toList_outputSignature, List.append_assoc]
  exact head?_word_append_ne (spelled output member).1 (by decide) fun _ => by simp

/-! ### Signatures of unfoldings -/

/-- What a program declares and writes, written out. -/
def programSignature (stage : Stage) (inputs uniforms : List Interface)
    (outputs : List (String × Tree)) : String :=
  "Shader(" ++ stage.name ++ ",[" ++ commaSeparated (inputs.map Interface.signature) ++ "],[" ++
    commaSeparated (uniforms.map Interface.signature) ++ "],\x7b" ++
    commaSeparated (outputs.map outputSignature) ++ "\x7d)"

/-- The structure of an unfolding, written out. -/
def signature : Unfolding → String
  | expr tree => tree.signature
  | program stage inputs uniforms outputs => programSignature stage inputs uniforms outputs

/-- The signature of a program, character by character. -/
theorem toList_programSignature (stage : Stage) (inputs uniforms : List Interface)
    (outputs : List (String × Tree)) :
    (programSignature stage inputs uniforms outputs).toList =
      Heading.program.word.toList ++ '(' :: (stage.name.toList ++ ',' :: '[' ::
        ([','].intercalate (inputs.map fun interface => interface.signature.toList) ++
          ']' :: ',' :: '[' ::
        ([','].intercalate (uniforms.map fun interface => interface.signature.toList) ++
          ']' :: ',' :: '\x7b' ::
        ([','].intercalate (outputs.map fun output => (outputSignature output).toList) ++
          '\x7d' :: [')'])))) := by
  -- The equation of the definition is slow to make: that would compare texts by their bytes.
  delta programSignature
  simp [commaSeparated, Heading.word, Function.comp_def]

/-- The names in an unfolding are words, and no undefined number but the given one is in it. -/
inductive Spelled (undefined : Binary64) : Unfolding → Prop where
  | expr {tree : Tree} (spelled : tree.Spelled undefined) : Spelled undefined (.expr tree)
  | program {stage : Stage} {inputs uniforms : List Interface} {outputs : List (String × Tree)}
      (inputWords : ∀ interface ∈ inputs, isWord interface.name = true)
      (uniformWords : ∀ interface ∈ uniforms, isWord interface.name = true)
      (spelled : ∀ output ∈ outputs, OutputSpelled undefined output) :
      Spelled undefined (.program stage inputs uniforms outputs)

/-- No expression has the signature of a program. -/
theorem signature_ne_programSignature (tree : Tree) (stage : Stage)
    (inputs uniforms : List Interface) (outputs : List (String × Tree)) :
    tree.signature ≠ programSignature stage inputs uniforms outputs := by
  intro same
  have sameText := congrArg String.toList same
  rw [toList_programSignature, tree.toList_signature] at sameText
  obtain ⟨sameWord, -⟩ := word_append_inj tree.heading.isWord_word Heading.program.isWord_word
    (by decide) (by decide) sameText
  exact Heading.program_ne_heading tree (Heading.word_injective sameWord).symm

/-- An unfolding can be read back from its signature. -/
theorem signature_injective {unfolding other : Unfolding} (spelled : unfolding.Spelled undefined)
    (otherSpelled : other.Spelled undefined) (same : unfolding.signature = other.signature) :
    unfolding = other := by
  cases spelled with
  | expr spelled =>
      cases otherSpelled with
      | expr otherSpelled =>
          have sameText := congrArg (·.toList ++ []) same
          obtain ⟨rfl, -⟩ := Tree.signature_append_inj spelled otherSpelled sameText
          rfl
      | program _ _ _ => exact absurd same (signature_ne_programSignature _ _ _ _ _)
  | @program stage inputs uniforms outputs inputWords uniformWords spelled =>
      cases otherSpelled with
      | expr _ => exact absurd same.symm (signature_ne_programSignature _ _ _ _ _)
      | @program otherStage _ _ _ otherInputs otherUniforms otherSpelled =>
          have sameText := congrArg String.toList same
          rw [signature, signature, toList_programSignature, toList_programSignature] at sameText
          obtain ⟨-, -, stages⟩ := word_append_inj Heading.program.isWord_word
            Heading.program.isWord_word (by decide) (by decide) sameText
          obtain ⟨sameStage, -, inputLists⟩ := word_append_inj stage.isWord_name
            otherStage.isWord_name (by decide) (by decide) stages
          obtain rfl := injective_of_found Stage.ofName?_name sameStage
          obtain ⟨rfl, uniformLists⟩ := Interface.signatures_append_inj
            (List.forall_mem_append.mpr ⟨inputWords, otherInputs⟩) (List.cons.inj inputLists).2
          obtain ⟨rfl, outputLists⟩ := Interface.signatures_append_inj
            (List.forall_mem_append.mpr ⟨uniformWords, otherUniforms⟩)
            (List.cons.inj (List.cons.inj uniformLists).2).2
          obtain ⟨rfl, -⟩ := outputSignatures_append_inj
            (List.forall_mem_append.mpr ⟨spelled, otherSpelled⟩)
            (List.cons.inj (List.cons.inj outputLists).2).2
          rfl

end Unfolding

namespace Pool

variable {pool : Pool} {id : NodeId} {node : Node} {unfolding : Unfolding}

/-! ### Writing signatures -/

/-- The signatures of outputs are written from those of their trees. -/
theorem outputSignatures_eq {child : NodeId → Except Error String}
    {entries : List (String × NodeId)} {outputs : List (String × Tree)}
    (trees : mapNamed pool.tree? entries = some outputs)
    (written : ∀ id ∈ entries.map Prod.snd, ∀ tree, pool.tree? id = some tree →
      child id = .ok tree.signature) :
    Node.outputSignatures child entries = .ok (outputs.map Unfolding.outputSignature) := by
  rw [mapNamed_eq_some_iff] at trees
  induction trees with
  | nil => rfl
  | cons isFirst _ ih =>
      have first := written _ List.mem_cons_self _ isFirst.2
      have later := ih fun id member => written id (List.mem_cons_of_mem _ member)
      simp only [Node.outputSignatures, first, later, isFirst.1, List.map_cons,
        Unfolding.outputSignature, bind, Except.bind, pure, Except.pure]

/-- The signature of a node over those of its children is that of its unfolding. -/
theorem WellFormed.node_signature (wf : pool.WellFormed) (found : pool.node? id = some node)
    (unfolded : pool.unfolding? id = some unfolding) {child : NodeId → Except Error String}
    (written : ∀ id ∈ node.children, ∀ tree, pool.tree? id = some tree →
      child id = .ok tree.signature) : node.signature child = .ok unfolding.signature := by
  rcases wf.unfolding?_eq_some_iff.mp unfolded with
    ⟨tree, isTree, rfl⟩ | ⟨program, outputs, isProgram, trees, rfl⟩
  · cases wf.shows found isTree with
    | constant _ _ | var _ _ => rfl
    | unary op below =>
        rw [Node.signature, written _ List.mem_cons_self _ below]
        rfl
    | binary op belowLeft belowRight =>
        rw [Node.signature, written _ List.mem_cons_self _ belowLeft,
          written _ (List.mem_cons_of_mem _ List.mem_cons_self) _ belowRight]
        rfl
    | qualified kind below =>
        rw [Node.signature, written _ List.mem_cons_self _ below]
        rfl
  · rw [found] at isProgram
    cases isProgram
    rw [Node.signature, outputSignatures_eq trees written]
    rfl

/-- The signature of the node has been written. -/
def Written (pool : Pool) (written : Std.TreeMap NodeId String) (id : NodeId) : Prop :=
  ∃ unfolding, pool.unfolding? id = some unfolding ∧ written[id]? = some unfolding.signature

/-- A signature that was written is that of the tree. -/
theorem WellFormed.writtenSignature_eq (wf : pool.WellFormed)
    {written : Std.TreeMap NodeId String} (isWritten : pool.Written written id) {tree : Tree}
    (unfolded : pool.tree? id = some tree) : writtenSignature written id = .ok tree.signature := by
  obtain ⟨unfolding, isUnfolding, found⟩ := isWritten
  rw [wf.unfolding?_expr_iff.mpr unfolded] at isUnfolding
  cases isUnfolding
  rw [writtenSignature, found]
  rfl

/-- Signatures can be written in an order in which children come first. -/
theorem WellFormed.writeSignatures_spec (wf : pool.WellFormed) {order : List NodeId}
    (present : ∀ id ∈ order, pool.contains id = true) {done : NodeId → Prop}
    (ordered : pool.ChildrenFirst (fun _ => false) done order)
    {written : Std.TreeMap NodeId String} (isWritten : ∀ id, done id → pool.Written written id) :
    ∃ result, pool.writeSignatures order written = .ok result ∧
      ∀ id, id ∈ order ∨ done id → pool.Written result id := by
  induction order generalizing written done with
  | nil =>
      exact ⟨written, rfl, fun id member => isWritten id (member.resolve_left List.not_mem_nil)⟩
  | cons first rest ih =>
      obtain ⟨isPresent, presentRest⟩ := List.forall_mem_cons.mp present
      obtain ⟨unfolding, unfolded⟩ := wf.exists_unfolding? isPresent
      obtain ⟨⟨node, type⟩, isEntry⟩ := Option.isSome_iff_exists.mp isPresent
      have found := node?_eq_some_iff.mpr ⟨type, isEntry⟩
      have writtenBelow : ∀ child ∈ node.children, ∀ tree, pool.tree? child = some tree →
          writtenSignature written child = .ok tree.signature := by
        intro child member tree childTree
        refine wf.writtenSignature_eq (isWritten child (ordered.1 child ?_)) childTree
        rw [expansion, if_neg Bool.false_ne_true, wf.operands_eq found]
        exact member
      have writtenNext : ∀ id, id = first ∨ done id →
          pool.Written (written.insert first unfolding.signature) id := by
        intro id isDone
        by_cases same : id = first
        · rw [same]
          exact ⟨unfolding, unfolded, Std.TreeMap.getElem?_insert_self⟩
        · obtain ⟨other, isOther, earlier⟩ := isWritten id (isDone.resolve_left same)
          refine ⟨other, isOther, ?_⟩
          rw [Std.TreeMap.getElem?_insert, if_neg, earlier]
          exact fun equal => same (Std.LawfulEqCmp.eq_of_compare equal).symm
      obtain ⟨result, ran, writtenAll⟩ := ih presentRest ordered.2 writtenNext
      refine ⟨result, ?_, fun id member => writtenAll id ?_⟩
      · rw [writeSignatures, node_eq_ok_iff.mpr found]
        simp only [wf.node_signature found unfolded writtenBelow]
        exact ran
      · rw [List.mem_cons] at member
        tauto

/-- The signature of a node is its unfolding, written out. -/
theorem WellFormed.signature_eq (wf : pool.WellFormed) (present : pool.contains id = true) :
    ∃ unfolding, pool.unfolding? id = some unfolding ∧
      pool.signature id = .ok unfolding.signature := by
  obtain ⟨order, listed, ordered, rootListed, within⟩ :=
    wf.postOrderUntil_spec present fun _ => false
  have allPresent : ∀ id ∈ order, pool.contains id = true := fun id member =>
    wf.contains_of_mem_occurrences (List.forall_mem_singleton.mpr present) (within id member)
  have noneWritten : ∀ id : NodeId, False → pool.Written ∅ id := fun _ => False.elim
  obtain ⟨written, ran, isWritten⟩ := wf.writeSignatures_spec allPresent ordered noneWritten
  obtain ⟨unfolding, unfolded, found⟩ := isWritten id (Or.inl rootListed)
  refine ⟨unfolding, unfolded, ?_⟩
  rw [signature, postOrder, listed]
  simp only [bind, Except.bind, ran, found]

end Pool

/-! ### Pools that can be spelled -/

/-- The names in a node are words, and no undefined number but the given one is in it. -/
def Node.Spelled (undefined : Binary64) : Node → Prop
  | constant _ components => ∀ number ∈ components, number.isNaN = true → number = undefined
  | var _ name => isWord name = true
  | shader program =>
    (∀ interface ∈ program.inputs ++ program.uniforms, isWord interface.name = true) ∧
      ∀ name ∈ program.outputs.keys, isWord name = true
  | unary .. | binary .. | qualified .. => True

instance : (node : Node) → Decidable (node.Spelled undefined)
  | .constant _ components =>
    inferInstanceAs (Decidable (∀ number ∈ components, number.isNaN = true → number = undefined))
  | .var _ name => inferInstanceAs (Decidable (isWord name = true))
  | .shader program => inferInstanceAs (Decidable
      ((∀ interface ∈ program.inputs ++ program.uniforms, isWord interface.name = true) ∧
        ∀ name ∈ program.outputs.keys, isWord name = true))
  | .unary .. | .binary .. | .qualified .. => .isTrue trivial

namespace Pool

variable {pool : Pool} {id : NodeId} {unfolding : Unfolding}

/-- The names in a pool are words, and no undefined number but the given one is in it. -/
def Spelled (undefined : Binary64) (pool : Pool) : Prop :=
  ∀ id node, pool.node? id = some node → node.Spelled undefined

instance : Decidable (pool.Spelled undefined) :=
  decidable_of_iff (∀ id < pool.slots.size, ∀ node ∈ pool.node? id, node.Spelled undefined)
    ⟨fun spelled id node found => spelled id (lt_size_of_node? found) node found,
      fun spelled id _ node found => spelled id node found⟩

/-- A tree in a spelled pool is spelled. -/
theorem WellFormed.spelled_tree? (wf : pool.WellFormed) (spelled : pool.Spelled undefined)
    {tree : Tree} (unfolded : pool.tree? id = some tree) : tree.Spelled undefined where
  names type name member := by
    obtain ⟨below, -, isVar⟩ := wf.exists_below unfolded member
    exact spelled below _ (wf.node?_var_iff.mpr isVar)
  numbers type components member := by
    obtain ⟨below, -, isConstant⟩ := wf.exists_below unfolded member
    obtain ⟨_, found, ⟨⟩⟩ := wf.tree?_eq_some_iff.mp isConstant
    exact spelled below _ found

/-- An unfolding in a spelled pool is spelled. -/
theorem WellFormed.spelled_unfolding? (wf : pool.WellFormed) (spelled : pool.Spelled undefined)
    (unfolded : pool.unfolding? id = some unfolding) : unfolding.Spelled undefined := by
  rcases wf.unfolding?_eq_some_iff.mp unfolded with
    ⟨tree, isTree, rfl⟩ | ⟨program, outputs, found, trees, rfl⟩
  · exact .expr (wf.spelled_tree? spelled isTree)
  · obtain ⟨declared, named⟩ := spelled id _ found
    obtain ⟨inputWords, uniformWords⟩ := List.forall_mem_append.mp declared
    refine .program inputWords uniformWords fun output member => ?_
    obtain ⟨expr, inside, exprTree⟩ := exists_entry_of_mapNamed trees member
    exact ⟨named _ (List.mem_map_of_mem inside), wf.spelled_tree? spelled exprTree⟩

/-- Signatures of two pools are the same only if they are of the same unfolding. -/
theorem signature_eq_iff {other : Pool} (wf : pool.WellFormed) (wfOther : other.WellFormed)
    (spelled : pool.Spelled undefined) (otherSpelled : other.Spelled undefined)
    {left right : NodeId} (leftPresent : pool.contains left = true)
    (rightPresent : other.contains right = true) :
    pool.signature left = other.signature right ↔
      pool.unfolding? left = other.unfolding? right := by
  obtain ⟨unfolding, unfolded, signed⟩ := wf.signature_eq leftPresent
  obtain ⟨unfoldingRight, unfoldedRight, signedRight⟩ := wfOther.signature_eq rightPresent
  rw [unfolded, unfoldedRight, signed, signedRight]
  refine ⟨fun same => congrArg some ?_, fun same => by rw [Option.some.inj same]⟩
  exact Unfolding.signature_injective (wf.spelled_unfolding? spelled unfolded)
    (wfOther.spelled_unfolding? otherSpelled unfoldedRight) (Except.ok.inj same)

/-- Signatures identify structures. Every node of a pool has a signature, its unfolding written out,
and nodes of a pool have the same signature only if they are the same. Nodes of two pools have the
same signature only if they have the same unfolding. -/
theorem signature_identifies (reachable : pool.Reachable) (spelled : pool.Spelled undefined) :
    (∀ id, pool.contains id = true → ∃ unfolding, pool.unfolding? id = some unfolding ∧
      pool.signature id = .ok unfolding.signature) ∧
    (∀ left right, pool.contains left = true → pool.contains right = true →
      (pool.signature left = pool.signature right ↔ left = right)) ∧
    ∀ other : Pool, other.Reachable → other.Spelled undefined → ∀ left right,
      pool.contains left = true → other.contains right = true →
      (pool.signature left = other.signature right ↔
        pool.unfolding? left = other.unfolding? right) := by
  have wf := reachable.wellFormed
  refine ⟨fun id => wf.signature_eq, ?_, ?_⟩
  · intro left right leftPresent rightPresent
    rw [signature_eq_iff wf wf spelled spelled leftPresent rightPresent]
    refine ⟨fun same => ?_, congrArg _⟩
    obtain ⟨unfolding, unfolded⟩ := wf.exists_unfolding? leftPresent
    exact wf.unfolding?_injective unfolded (same ▸ unfolded)
  · intro other otherReachable otherSpelled left right leftPresent rightPresent
    exact signature_eq_iff wf otherReachable.wellFormed spelled otherSpelled leftPresent
      rightPresent

/-- A program with an undefined and a negative number. -/
def glow : Pool :=
  (empty 0).afterCalls [.var .float "x", .constant .float [⟨0x7FF8000000000000⟩],
    .binary 0 .mul 1, .constant .float [⟨0xBFF8000000000000⟩],
    .shader { stage := .fragment, inputs := [⟨"x", .float⟩], uniforms := [⟨"u", .vec2⟩],
              outputs := .ofList [("o_Color", 2), ("o_Glow", 3)] }]

/-- The same program, made in another order and beside something else. -/
def laterGlow : Pool :=
  (empty 1).afterCalls [.var .vec2 "y", .constant .float [⟨0xBFF8000000000000⟩],
    .constant .float [⟨0x7FF8000000000000⟩], .var .float "x", .binary 3 .mul 2,
    .shader { stage := .fragment, inputs := [⟨"x", .float⟩], uniforms := [⟨"u", .vec2⟩],
              outputs := .ofList [("o_Color", 4), ("o_Glow", 1)] }]

/-- One program in two pools, with one signature and one unfolding. -/
theorem signature_identifies_glow :
    let text := "Shader(fragment,[x:float],[u:vec2],\x7bo_Color=Binary(Variable(float,x),*," ++
      "Constant(float,[NaN])),o_Glow=Constant(float,[-1.5])\x7d)"
    glow.signature 4 = .ok text ∧ laterGlow.signature 5 = .ok text ∧
      glow.signature 1 ≠ glow.signature 3 ∧ glow.signature 3 ≠ laterGlow.signature 0 := by
  intro text
  let program := Unfolding.program .fragment [⟨"x", .float⟩] [⟨"u", .vec2⟩]
    [("o_Color", .binary (.var .float "x") .mul (.constant .float [⟨0x7FF8000000000000⟩])),
      ("o_Glow", .constant .float [⟨0xBFF8000000000000⟩])]
  have reachable : glow.Reachable := ⟨0, _, rfl⟩
  have laterReachable : laterGlow.Reachable := ⟨1, _, rfl⟩
  have spelled : glow.Spelled ⟨0x7FF8000000000000⟩ := by decide +kernel
  have laterSpelled : laterGlow.Spelled ⟨0x7FF8000000000000⟩ := by decide +kernel
  have present : ∀ id < 5, glow.contains id = true := by decide +kernel
  have laterPresent : ∀ id < 6, laterGlow.contains id = true := by decide +kernel
  have unfolded : glow.unfolding? 4 = some program := by decide +kernel
  have sameUnfolding : glow.unfolding? 4 = laterGlow.unfolding? 5 := by decide +kernel
  have different : glow.unfolding? 3 ≠ laterGlow.unfolding? 0 := by decide +kernel
  have isText : program.signature = text := by decide +kernel
  obtain ⟨written, within, across⟩ := signature_identifies reachable spelled
  have toLater := across laterGlow laterReachable laterSpelled
  obtain ⟨unfolding, isProgram, signed⟩ := written 4 (present 4 (by decide))
  rw [unfolded, Option.some.injEq] at isProgram
  rw [← isProgram, isText] at signed
  refine ⟨signed, ?_, ?_, ?_⟩
  · rw [← (toLater 4 5 (present 4 (by decide)) (laterPresent 5 (by decide))).mpr sameUnfolding]
    exact signed
  · rw [ne_eq, within 1 3 (present 1 (by decide)) (present 3 (by decide))]
    decide
  · rw [ne_eq, toLater 3 0 (present 3 (by decide)) (laterPresent 0 (by decide))]
    exact different

end Pool

end Shading
