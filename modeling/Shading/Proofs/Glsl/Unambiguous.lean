import Shading.Proofs.Binary64.Literal
import Shading.Proofs.Effect.Completeness
import Shading.Proofs.Evaluation.Components
import Shading.Proofs.Glsl.Phrase
import Shading.Proofs.Interpretation.Fold

/-!
# Texts of expressions

The text of a tree is the text of its phrase (`Tree.chars_phrase`). Trees with the same phrase are
equal if their variables of one name have one type, since a phrase shows everything else
(`Tree.eq_of_phrase`). Phrases are read in one way, and nodes of a pool with equal trees are the
same node, so an expression can be told from its text.
-/

namespace Shading

/-- There is one scalar. -/
theorem ValueType.isScalar_iff {type : ValueType} : type.isScalar = true ↔ type = .float := by
  cases type <;> decide

namespace Glsl.Phrase

variable {phrase left right : Phrase} {text leftText rightText : String}

/-! ### Phrases of nodes -/

/-- The phrase of a constant. -/
def ofConstant (type : ValueType) (components : List Binary64) : Phrase :=
  let first := number (components.headD .zero)
  if type.isScalar then first
  else call (.construct type) first (components.tail.map number)

/-- The phrase of a unary operator. -/
def ofUnary : UnaryOp → Phrase → Phrase
  | .neg, operand => negation operand
  | .abs, operand => call .abs operand []
  | .length, operand => call .length operand []

/-- The phrase of a binary operator. -/
def ofBinary : BinaryOp → Phrase → Phrase → Phrase
  | .add, left, right => operation left '+' right
  | .sub, left, right => operation left '-' right
  | .mul, left, right => operation left '*' right
  | .div, left, right => operation left '/' right
  | .mod, left, right => call .mod left [right]
  | .dot, left, right => call .dot left [right]
  | .cross, left, right => call .cross left [right]

/-- The nodes that phrases come from. -/
inductive Origin where
  | constant
  | var
  | unary
  | binary

/-- The node that a phrase comes from. -/
def origin : Phrase → Origin
  | number _ | call (.construct _) _ _ => .constant
  | name _ => .var
  | negation _ | call .abs _ _ | call .length _ _ => .unary
  | operation .. | call .mod _ _ | call .dot _ _ | call .cross _ _ => .binary

@[simp]
theorem origin_name (word : String) : (name word).origin = .var :=
  rfl

@[simp]
theorem origin_ofConstant (type : ValueType) (components : List Binary64) :
    (ofConstant type components).origin = .constant := by
  cases type <;> rfl

@[simp]
theorem origin_ofUnary (op : UnaryOp) (operand : Phrase) :
    (ofUnary op operand).origin = .unary := by
  cases op <;> rfl

@[simp]
theorem origin_ofBinary (op : BinaryOp) (left right : Phrase) :
    (ofBinary op left right).origin = .binary := by
  cases op <;> rfl

/-- A unary operator and its operand are told by the phrase. -/
theorem ofUnary_inj {op other : UnaryOp} (same : ofUnary op left = ofUnary other right) :
    op = other ∧ left = right := by
  cases op <;> cases other <;> simp_all [ofUnary]

/-- A binary operator and its operands are told by the phrase. -/
theorem ofBinary_inj {op other : BinaryOp} {otherLeft otherRight : Phrase}
    (same : ofBinary op left right = ofBinary other otherLeft otherRight) :
    op = other ∧ left = otherLeft ∧ right = otherRight := by
  cases op <;> cases other <;> simp_all [ofBinary]

/-- A constant has a first component. -/
theorem exists_components {type : ValueType} {components : List Binary64}
    (arity : components.length = type.length) : ∃ first rest, components = first :: rest := by
  apply List.exists_cons_of_length_pos
  rw [arity]
  exact type.length_pos

/-- The type and the components of a constant are told by the phrase. -/
theorem ofConstant_inj {type other : ValueType} {components others : List Binary64}
    (arity : components.length = type.length) (otherArity : others.length = other.length)
    (same : ofConstant type components = ofConstant other others) :
    type = other ∧ components = others := by
  obtain ⟨first, rest, rfl⟩ := exists_components arity
  obtain ⟨otherFirst, otherRest, rfl⟩ := exists_components otherArity
  unfold ofConstant at same
  by_cases scalar : type.isScalar = true
  · by_cases otherScalar : other.isScalar = true
    · obtain rfl := ValueType.isScalar_iff.mp scalar
      obtain rfl := ValueType.isScalar_iff.mp otherScalar
      simp only [scalar, ↓reduceIte, List.headD_cons, number.injEq] at same
      have noRest : rest = [] := List.length_eq_zero_iff.mp (Nat.succ.inj arity)
      have noOther : otherRest = [] := List.length_eq_zero_iff.mp (Nat.succ.inj otherArity)
      rw [same, noRest, noOther]
      exact ⟨rfl, rfl⟩
    · simp [scalar, otherScalar] at same
  · by_cases otherScalar : other.isScalar = true
    · simp [scalar, otherScalar] at same
    · simp only [scalar, otherScalar, Bool.false_eq_true, ↓reduceIte, List.headD_cons,
        List.tail_cons, call.injEq, Callee.construct.injEq, number.injEq] at same
      obtain ⟨sameType, sameFirst, sameRest⟩ := same
      have injective : Function.Injective number := fun _ _ => number.inj
      have sameNumbers := List.map_injective_iff.mpr injective sameRest
      exact ⟨sameType, List.cons_eq_cons.mpr ⟨sameFirst, sameNumbers⟩⟩

/-- The phrase of a constant is proper. -/
theorem proper_ofConstant (type : ValueType) (components : List Binary64) :
    (ofConstant type components).Proper := by
  unfold ofConstant
  dsimp only
  split
  · exact .number _
  · refine .call _ (.number _) fun phrase member => ?_
    obtain ⟨value, -, rfl⟩ := List.mem_map.mp member
    exact .number value

/-- The phrase of a unary operator is proper if its operand's is. -/
theorem Proper.ofUnary (op : UnaryOp) (proper : phrase.Proper) : (ofUnary op phrase).Proper := by
  cases op with
  | neg => exact .negation proper
  | abs | length => exact .call _ proper nofun

/-- The phrase of a binary operator is proper if its operands' are. -/
theorem Proper.ofBinary (op : BinaryOp) (before : left.Proper) (after : right.Proper) :
    (ofBinary op left right).Proper := by
  cases op with
  | add | sub | mul | div => exact .operation _ before after
  | mod | dot | cross => exact .call _ before (List.forall_mem_singleton.mpr after)

/-! ### Texts of nodes -/

/-- The text of a unary operator is that of its phrase. -/
theorem chars_ofUnary (op : UnaryOp) (same : text.toList = phrase.chars) :
    (unary op text).toList = (ofUnary op phrase).chars := by
  cases op with
  | neg =>
      rw [unary, String.startsWith_char_eq_head?, ofUnary, chars, apart, ← same]
      by_cases sign : text.toList.head? = some '-'
      · simp [sign]
      · simp [sign]
  | abs => simp [unary, ofUnary, chars, same, texts, closing, Callee.word, UnaryOp.symbol]
  | length => simp [unary, ofUnary, chars, same, texts, closing, Callee.word, UnaryOp.symbol]

/-- The text of a binary operator is that of its phrase. -/
theorem chars_ofBinary (op : BinaryOp) (leftSame : leftText.toList = left.chars)
    (rightSame : rightText.toList = right.chars) :
    (binary op leftText rightText).toList = (ofBinary op left right).chars := by
  cases op <;>
    simp [binary, ofBinary, chars, leftSame, rightSame, texts, closing, Callee.word,
      BinaryOp.symbol]

/-- A number has a literal if it is finite, and then it is written by its literal characters. -/
theorem literal_eq_ok_iff {value : Binary64} : literal value = .ok text ↔
    value.isFinite = true ∧ text.toList = value.literalChars := by
  rw [← Binary64.literal?_eq_some_iff, literal]
  cases value.literal? with
  | none => simp
  | some shown => simp

/-- Texts between commas, up to the parenthesis after them. -/
theorem intercalate_append (first : List Char) (rest : List (List Char)) :
    [',', ' '].intercalate (first :: rest) ++ [')'] = first ++ closing rest := by
  induction rest generalizing first with
  | nil => simp [closing]
  | cons second rest ih =>
      rw [List.intercalate_cons_cons, List.append_assoc, ih, closing]
      simp

/-- The texts of numbers are those of their phrases, and the numbers are finite. -/
theorem literals_of_mapM {components : List Binary64} {shown : List String}
    (ran : components.mapM literal = .ok shown) :
    (∀ value ∈ components, value.isFinite = true) ∧
      shown.map String.toList = components.map Binary64.literalChars := by
  induction components generalizing shown with
  | nil =>
      cases ran
      exact ⟨nofun, rfl⟩
  | cons value rest ih =>
      rw [List.mapM_cons] at ran
      obtain ⟨first, isFirst, ran⟩ := exists_of_except_ok ran
      obtain ⟨others, areOthers, ran⟩ := exists_of_except_ok ran
      cases ran
      obtain ⟨finite, sameFirst⟩ := literal_eq_ok_iff.mp isFirst
      obtain ⟨areFinite, sameOthers⟩ := ih areOthers
      refine ⟨List.forall_mem_cons.mpr ⟨finite, areFinite⟩, ?_⟩
      rw [List.map_cons, List.map_cons, sameFirst, sameOthers]

/-- The text of a constant with the components of its type is that of its phrase, and the components
are finite. -/
theorem chars_ofConstant {type : ValueType} {components : List Binary64}
    (arity : components.length = type.length) (isText : constant type components = .ok text) :
    (∀ value ∈ components, value.isFinite = true) ∧
      text.toList = (ofConstant type components).chars := by
  obtain ⟨first, rest, rfl⟩ := exists_components arity
  unfold ofConstant
  unfold constant at isText
  by_cases scalar : type.isScalar = true
  · obtain rfl := ValueType.isScalar_iff.mp scalar
    obtain ⟨finite, sameText⟩ := literal_eq_ok_iff.mp isText
    have noRest : rest = [] := List.length_eq_zero_iff.mp (Nat.succ.inj arity)
    rw [noRest, if_pos scalar, chars]
    exact ⟨List.forall_mem_singleton.mpr finite, sameText⟩
  · rw [if_neg scalar] at isText
    obtain ⟨shown, ran, rfl⟩ := exists_of_map_ok isText
    obtain ⟨finite, sameTexts⟩ := literals_of_mapM ran
    have sameNumbers : texts (rest.map number) = rest.map Binary64.literalChars := by
      simp [texts_eq_map, chars]
    refine ⟨finite, ?_⟩
    rw [if_neg scalar, chars, chars, List.tail_cons, List.headD_cons, sameNumbers,
      ← intercalate_append, ← List.map_cons, ← sameTexts]
    simp [arguments, String.toList_intercalate, Callee.word]

end Glsl.Phrase

/-! ### Phrases of trees -/

namespace Tree

variable {tree left right : Tree}

/-- The phrase of a tree; qualifiers are not written. -/
def phrase : Tree → Glsl.Phrase
  | constant type components => .ofConstant type components
  | var _ name => .name name
  | unary op operand => .ofUnary op operand.phrase
  | binary lhs op rhs => .ofBinary op lhs.phrase rhs.phrase
  | qualified _ inner => inner.phrase

/-- The names of the variables are identifiers. -/
def Identified (tree : Tree) : Prop :=
  ∀ entry ∈ tree.vars, Glsl.isIdentifier entry.2 = true

/-- Variables of one name have the same type in both trees. -/
def Agrees (left right : Tree) : Prop :=
  ∀ first ∈ left.vars, ∀ second ∈ right.vars, first.2 = second.2 → first.1 = second.1

instance : Decidable tree.Identified :=
  inferInstanceAs (Decidable (∀ entry ∈ tree.vars, Glsl.isIdentifier entry.2 = true))

instance : Decidable (left.Agrees right) :=
  inferInstanceAs (Decidable (∀ first ∈ left.vars, _))

/-- The variables of a child are variables of the tree. -/
theorem vars_child {child : Tree} (member : child ∈ tree.children)
    {entry : ValueType × String} (inside : entry ∈ child.vars) : entry ∈ tree.vars :=
  mem_vars_iff.mpr (mem_subtrees_of_child member (mem_vars_iff.mp inside))

/-- The names in a child are identifiers if those in the tree are. -/
theorem Identified.child {child : Tree} (identified : tree.Identified)
    (member : child ∈ tree.children) : child.Identified :=
  fun entry inside => identified entry (vars_child member inside)

/-- Children of trees that agree on their variables agree on them too. -/
theorem Agrees.children {child other : Tree} (agrees : left.Agrees right)
    (member : child ∈ left.children) (otherMember : other ∈ right.children) : child.Agrees other :=
  fun first inside second otherInside =>
    agrees first (vars_child member inside) second (vars_child otherMember otherInside)

theorem var_mem_vars (type : ValueType) (name : String) :
    (type, name) ∈ (var type name).vars :=
  mem_vars_iff.mpr (self_mem_subtrees _)

/-- A tree with identifiers for names has a proper phrase. -/
theorem proper_phrase (identified : tree.Identified) : tree.phrase.Proper := by
  induction tree with
  | constant type components => exact Glsl.Phrase.proper_ofConstant type components
  | var type name => exact .name (identified (type, name) (var_mem_vars type name))
  | unary op operand ih => exact (ih (identified.child List.mem_cons_self)).ofUnary op
  | binary lhs op rhs ihLeft ihRight =>
      exact (ihLeft (identified.child List.mem_cons_self)).ofBinary op
        (ihRight (identified.child (List.mem_cons_of_mem _ List.mem_cons_self)))
  | qualified kind inner ih => exact ih (identified.child List.mem_cons_self)

/-- The text of a tree is that of its phrase. -/
theorem chars_phrase {result : Operand String} (complete : tree.Complete)
    (interpreted : tree.interpret Glsl.textual = .ok result) :
    result.value.toList = tree.phrase.chars := by
  induction tree generalizing result with
  | constant type components =>
      obtain ⟨text, isText, rfl⟩ := exists_of_map_ok interpreted
      rw [phrase]
      exact (Glsl.Phrase.chars_ofConstant (complete type components (self_mem_subtrees _)) isText).2
  | var type name =>
      cases interpreted
      rw [phrase, Glsl.Phrase.chars]
  | unary op operand ih =>
      obtain ⟨value, below, computed⟩ := exists_of_except_ok interpreted
      cases computed
      rw [phrase]
      exact Glsl.Phrase.chars_ofUnary op (ih (complete.child List.mem_cons_self) below)
  | binary lhs op rhs ihLeft ihRight =>
      obtain ⟨leftResult, first, rest⟩ := exists_of_except_ok interpreted
      obtain ⟨rightResult, second, computed⟩ := exists_of_except_ok rest
      split at computed
      next type fits =>
        cases computed
        rw [phrase]
        exact Glsl.Phrase.chars_ofBinary op (ihLeft (complete.child List.mem_cons_self) first)
          (ihRight (complete.child (List.mem_cons_of_mem _ List.mem_cons_self)) second)
      next => cases computed
  | qualified kind inner _ => cases interpreted

/-- A tree with a text has no qualifiers and finite constants only. -/
theorem ready_of_interpret {result : Operand String} (complete : tree.Complete)
    (interpreted : tree.interpret Glsl.textual = .ok result) : Glsl.Ready tree where
  typed := by
    rw [type?_of_interpret interpreted]
    rfl
  free := by
    intro small member kind _ isQualified
    obtain ⟨inner, rfl⟩ := eq_qualified_of_qualifier? isQualified
    obtain ⟨smallResult, smallInterpreted⟩ := exists_interpret_of_mem_subtrees interpreted member
    cases smallInterpreted
  printable := by
    intro small member
    cases small with
    | constant type components =>
        obtain ⟨smallResult, smallInterpreted⟩ :=
          exists_interpret_of_mem_subtrees interpreted member
        obtain ⟨text, isText, -⟩ := exists_of_map_ok smallInterpreted
        have arity := complete type components member
        exact writable_constant.mpr ⟨arity, (Glsl.Phrase.chars_ofConstant arity isText).1⟩
    | var _ _ | unary _ _ | binary _ _ _ | qualified _ _ => rfl

/-- Trees with one phrase are equal if variables of one name have one type. -/
theorem eq_of_phrase (leftReady : Glsl.Ready left) (rightReady : Glsl.Ready right)
    (agrees : left.Agrees right) (same : left.phrase = right.phrase) : left = right := by
  induction left generalizing right with
  | constant type components =>
      cases right with
      | constant other others =>
          obtain ⟨arity, -⟩ := writable_constant.mp (leftReady.printable _ (self_mem_subtrees _))
          obtain ⟨otherArity, -⟩ :=
            writable_constant.mp (rightReady.printable _ (self_mem_subtrees _))
          obtain ⟨rfl, rfl⟩ := Glsl.Phrase.ofConstant_inj arity otherArity same
          rfl
      | var _ _ | unary _ _ | binary _ _ _ => simpa [phrase] using congrArg Glsl.Phrase.origin same
      | qualified kind inner => exact absurd rightReady (Glsl.not_ready_qualified kind inner)
  | var type name =>
      cases right with
      | var other otherName =>
          obtain rfl := Glsl.Phrase.name.inj same
          -- A name does not tell the type; this is where the trees must agree.
          rw [show type = other from
            agrees _ (var_mem_vars type name) _ (var_mem_vars other name) rfl]
      | constant _ _ | unary _ _ | binary _ _ _ =>
          simpa [phrase] using congrArg Glsl.Phrase.origin same
      | qualified kind inner => exact absurd rightReady (Glsl.not_ready_qualified kind inner)
  | unary op operand ih =>
      cases right with
      | unary other otherOperand =>
          obtain ⟨rfl, sameOperand⟩ := Glsl.Phrase.ofUnary_inj same
          rw [ih (leftReady.child List.mem_cons_self) (rightReady.child List.mem_cons_self)
            (agrees.children List.mem_cons_self List.mem_cons_self) sameOperand]
      | constant _ _ | var _ _ | binary _ _ _ =>
          simpa [phrase] using congrArg Glsl.Phrase.origin same
      | qualified kind inner => exact absurd rightReady (Glsl.not_ready_qualified kind inner)
  | binary lhs op rhs ihLeft ihRight =>
      cases right with
      | binary otherLeft other otherRight =>
          obtain ⟨rfl, sameLeft, sameRight⟩ := Glsl.Phrase.ofBinary_inj same
          rw [ihLeft (leftReady.child List.mem_cons_self) (rightReady.child List.mem_cons_self)
              (agrees.children List.mem_cons_self List.mem_cons_self) sameLeft,
            ihRight (leftReady.child (List.mem_cons_of_mem _ List.mem_cons_self))
              (rightReady.child (List.mem_cons_of_mem _ List.mem_cons_self))
              (agrees.children (List.mem_cons_of_mem _ List.mem_cons_self)
                (List.mem_cons_of_mem _ List.mem_cons_self)) sameRight]
      | constant _ _ | var _ _ | unary _ _ => simpa [phrase] using congrArg Glsl.Phrase.origin same
      | qualified kind inner => exact absurd rightReady (Glsl.not_ready_qualified kind inner)
  | qualified kind inner _ => exact absurd leftReady (Glsl.not_ready_qualified kind inner)

end Tree

/-! ### Graphs -/

/-- The variables below some roots have identifiers for names, and no name has two types. -/
structure Pool.Legible (pool : Pool) (roots : List NodeId) : Prop where
  identifiers : ∀ root ∈ roots, ∀ id type name, pool.Below root id →
    pool.node? id = some (.var type name) → Glsl.isIdentifier name = true
  typed : ∀ root ∈ roots, ∀ other ∈ roots, ∀ id otherId type otherType name,
    pool.Below root id → pool.node? id = some (.var type name) →
    pool.Below other otherId → pool.node? otherId = some (.var otherType name) → type = otherType

variable {pool : Pool} {root : NodeId} {tree : Tree}

/-- Fewer roots are legible if more are. -/
theorem Pool.Legible.mono {roots fewer : List NodeId} (legible : pool.Legible roots)
    (within : ∀ root ∈ fewer, root ∈ roots) : pool.Legible fewer where
  identifiers root isRoot := legible.identifiers root (within root isRoot)
  typed root isRoot other isOther :=
    legible.typed root (within root isRoot) other (within other isOther)

/-- Roots are legible if their trees have identifiers for names and agree on their variables. -/
theorem Pool.WellFormed.legible_iff (wf : pool.WellFormed) {roots : List NodeId}
    (unfold : ∀ root ∈ roots, ∃ tree, pool.tree? root = some tree) :
    pool.Legible roots ↔
      (∀ root ∈ roots, ∀ tree ∈ pool.tree? root, tree.Identified) ∧
        ∀ root ∈ roots, ∀ other ∈ roots, ∀ tree ∈ pool.tree? root,
          ∀ otherTree ∈ pool.tree? other, tree.Agrees otherTree := by
  constructor
  · intro legible
    constructor
    · rintro root isRoot tree unfolded ⟨type, name⟩ member
      obtain ⟨id, below, found⟩ := (wf.mem_vars_iff unfolded).mp member
      exact legible.identifiers root isRoot id type name below found
    · rintro root isRoot other isOther tree unfolded otherTree otherUnfolded ⟨type, name⟩ member
        ⟨otherType, _⟩ otherMember rfl
      obtain ⟨id, below, found⟩ := (wf.mem_vars_iff unfolded).mp member
      obtain ⟨otherId, otherBelow, otherFound⟩ :=
        (wf.mem_vars_iff otherUnfolded).mp otherMember
      exact legible.typed root isRoot other isOther id otherId type otherType name below found
        otherBelow otherFound
  · rintro ⟨identified, agrees⟩
    constructor
    · intro root isRoot id type name below found
      obtain ⟨tree, unfolded⟩ := unfold root isRoot
      exact identified root isRoot tree unfolded (type, name)
        ((wf.mem_vars_iff unfolded).mpr ⟨id, below, found⟩)
    · intro root isRoot other isOther id otherId type otherType name below found otherBelow
        otherFound
      obtain ⟨tree, unfolded⟩ := unfold root isRoot
      obtain ⟨otherTree, otherUnfolded⟩ := unfold other isOther
      exact agrees root isRoot other isOther tree unfolded otherTree otherUnfolded _
        ((wf.mem_vars_iff unfolded).mpr ⟨id, below, found⟩) _
        ((wf.mem_vars_iff otherUnfolded).mpr ⟨otherId, otherBelow, otherFound⟩) rfl

/-- A tree is ready if nothing in its graph is qualified or infinite. -/
theorem Pool.WellFormed.ready_iff (wf : pool.WellFormed) (unfolded : pool.tree? root = some tree) :
    Glsl.Ready tree ↔ pool.Unqualified [.attr, .fragment, .uniform] root ∧ pool.Finite root := by
  rw [wf.unqualified_iff unfolded, ← wf.printable_iff unfolded]
  constructor
  · intro ready
    exact ⟨ready.free, ready.printable⟩
  · rintro ⟨free, printable⟩
    exact ⟨wf.isSome_type? unfolded, free, printable⟩

/-- The texts of expressions are those of their trees. -/
theorem Pool.WellFormed.print_eq_ok_iff (wf : pool.WellFormed)
    (unfolded : pool.tree? root = some tree) {text : String} :
    Glsl.print pool root = .ok text ↔
      Glsl.Ready tree ∧ text.toList = tree.phrase.chars := by
  have complete := wf.complete unfolded
  rw [Glsl.print, Interpretation.result_of_tree? _ wf unfolded]
  constructor
  · intro printed
    obtain ⟨result, interpreted, rfl⟩ := exists_of_map_ok printed
    exact ⟨Tree.ready_of_interpret complete interpreted, Tree.chars_phrase complete interpreted⟩
  · rintro ⟨ready, sameText⟩
    obtain ⟨result, interpreted⟩ := Glsl.exists_text ready
    have shown := Tree.chars_phrase complete interpreted
    rw [interpreted, ← String.toList_inj.mp (shown.trans sameText.symm)]
    rfl

/-- An expression has a text exactly if nothing below it is qualified and its constants are finite.
Expressions with the same text are the same node if their variables have identifiers for names and
no name has two types. -/
theorem Glsl.print_unambiguous (reachable : pool.Reachable) :
    (∀ root type, pool.typeOf root = .ok type →
      ((∃ text, print pool root = .ok text) ↔
        pool.Unqualified [.attr, .fragment, .uniform] root ∧ pool.Finite root)) ∧
      ∀ left right leftType rightType text, pool.typeOf left = .ok leftType →
        pool.typeOf right = .ok rightType → print pool left = .ok text →
        print pool right = .ok text → pool.Legible [left, right] → left = right := by
  have wf := reachable.wellFormed
  constructor
  · intro root type typed
    obtain ⟨tree, unfolded⟩ := wf.exists_tree?_of_typeOf typed
    simp only [wf.print_eq_ok_iff unfolded, ← wf.ready_iff unfolded]
    constructor
    · rintro ⟨text, ready, -⟩
      exact ready
    · intro ready
      exact ⟨.ofList tree.phrase.chars, ready, String.toList_ofList⟩
  · intro left right leftType rightType text leftTyped rightTyped leftPrinted rightPrinted legible
    obtain ⟨leftTree, leftUnfolded⟩ := wf.exists_tree?_of_typeOf leftTyped
    obtain ⟨rightTree, rightUnfolded⟩ := wf.exists_tree?_of_typeOf rightTyped
    obtain ⟨leftReady, leftText⟩ := (wf.print_eq_ok_iff leftUnfolded).mp leftPrinted
    obtain ⟨rightReady, rightText⟩ := (wf.print_eq_ok_iff rightUnfolded).mp rightPrinted
    have unfold : ∀ root ∈ [left, right], ∃ tree, pool.tree? root = some tree := by
      simp [leftUnfolded, rightUnfolded]
    obtain ⟨identified, agrees⟩ := (wf.legible_iff unfold).mp legible
    have isLeft : left ∈ [left, right] := List.mem_cons_self
    have isRight : right ∈ [left, right] := List.mem_cons_of_mem _ List.mem_cons_self
    have samePhrase : leftTree.phrase = rightTree.phrase :=
      (Tree.proper_phrase (identified left isLeft leftTree leftUnfolded)).eq_of_chars
        (Tree.proper_phrase (identified right isRight rightTree rightUnfolded))
        (leftText.symm.trans rightText)
    have sameTree : leftTree = rightTree := Tree.eq_of_phrase leftReady rightReady
      (agrees left isLeft right isRight leftTree leftUnfolded rightTree rightUnfolded) samePhrase
    exact wf.tree?_injective leftUnfolded (sameTree ▸ rightUnfolded)

/-- A pool with signs in many places, `(- -3.0)`, `(-3.0)` and `(-3.0 - x)`, and with a variable
that is called like a type. -/
def signs : Pool :=
  (Pool.empty 0).afterCalls
    [.constant .float [⟨0xC008000000000000⟩], .var .float "x", .unary .neg 0, .binary 0 .sub 1,
      .constant .float [⟨0x4008000000000000⟩], .unary .neg 4, .var .float "vec2",
      .constant .vec2 [⟨0x4008000000000000⟩, ⟨0xC008000000000000⟩]]

/-- Eight expressions with signs in many places, printed as eight texts. -/
theorem Glsl.print_unambiguous_signs :
    (∀ root ∈ List.range 8, ∃ text, print signs root = .ok text) ∧ signs.Legible (List.range 8) ∧
      ∀ left ∈ List.range 8, ∀ right ∈ List.range 8, left ≠ right →
        print signs left ≠ print signs right := by
  have reachable : signs.Reachable := ⟨0, _, rfl⟩
  have wf := reachable.wellFormed
  have typed : ∀ root ∈ List.range 8, ∃ type, signs.typeOf root = .ok type := by
    have present : ∀ root ∈ List.range 8, (signs.type? root).isSome = true := by decide +kernel
    intro root isRoot
    obtain ⟨type, isType⟩ := Option.isSome_iff_exists.mp (present root isRoot)
    exact ⟨type, Pool.typeOf_eq_ok_iff.mpr isType⟩
  have unfold : ∀ root ∈ List.range 8, ∃ tree, signs.tree? root = some tree := by
    intro root isRoot
    obtain ⟨type, isType⟩ := typed root isRoot
    exact wf.exists_tree?_of_typeOf isType
  have shape : ∀ root ∈ List.range 8, ∀ tree ∈ signs.tree? root,
      tree.Free [.attr, .fragment, .uniform] ∧ tree.Printable ∧ tree.Identified := by
    decide +kernel
  have agrees : ∀ root ∈ List.range 8, ∀ other ∈ List.range 8, ∀ tree ∈ signs.tree? root,
      ∀ otherTree ∈ signs.tree? other, tree.Agrees otherTree := by decide +kernel
  have legible : signs.Legible (List.range 8) := (wf.legible_iff unfold).mpr
    ⟨fun root isRoot tree unfolded => (shape root isRoot tree unfolded).2.2, agrees⟩
  obtain ⟨hasText, unambiguous⟩ := Glsl.print_unambiguous reachable
  have printed : ∀ root ∈ List.range 8, ∃ text, print signs root = .ok text := by
    intro root isRoot
    obtain ⟨type, isType⟩ := typed root isRoot
    obtain ⟨tree, unfolded⟩ := unfold root isRoot
    obtain ⟨free, printable, -⟩ := shape root isRoot tree unfolded
    exact (hasText root type isType).mpr
      ⟨(wf.unqualified_iff unfolded).mpr free, (wf.printable_iff unfolded).mp printable⟩
  refine ⟨printed, legible, fun left isLeft right isRight different same => different ?_⟩
  obtain ⟨text, leftPrinted⟩ := printed left isLeft
  obtain ⟨leftType, leftTyped⟩ := typed left isLeft
  obtain ⟨rightType, rightTyped⟩ := typed right isRight
  apply unambiguous left right leftType rightType text leftTyped rightTyped leftPrinted
    (same ▸ leftPrinted)
  have both : ∀ root ∈ [left, right], root ∈ List.range 8 := by
    simpa using And.intro isLeft isRight
  exact legible.mono both

end Shading
