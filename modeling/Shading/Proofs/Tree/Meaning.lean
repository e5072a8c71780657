import Shading.Proofs.Tree.Substitution

/-!
# The meaning of a tree

A stage refers by name to what another stage or the outside supplies. The meaning of a tree puts
back what is supplied under the names and forgets the qualifiers, so that trees before and after a
rewriting can be compared. Some rewritings only take a qualifier away; they are compared with
`Tree.unwrap`.
-/

namespace Shading.Tree

variable {tree target replacement : Tree} {first second supply : String → Option Tree}

/-- What is left of a tree when variables are replaced in two rounds, the second inside the
results of the first, and qualifiers are erased. -/
def meaning (first second : String → Option Tree) (tree : Tree) : Tree :=
  ((tree.replace first).replace second).erase

/-- Nothing is supplied under the name of any variable of the tree. -/
def Unsupplied (supply : String → Option Tree) (tree : Tree) : Prop :=
  ∀ type name, var type name ∈ tree.subtrees → supply name = none

/-- Nothing is supplied in a subtree if nothing is in the tree. -/
theorem Unsupplied.mono {small : Tree} (unsupplied : tree.Unsupplied supply)
    (member : small ∈ tree.subtrees) : small.Unsupplied supply := by
  intro type name inside
  exact unsupplied type name (mem_subtrees_trans inside member)

/-- A tree stays as it is if nothing is supplied for its variables. -/
theorem replace_of_unsupplied (unsupplied : tree.Unsupplied supply) :
    tree.replace supply = tree := by
  induction tree with
  | constant type components => rfl
  | var type name =>
      rw [replace, unsupplied type name (self_mem_subtrees _)]
      rfl
  | unary op operand ih =>
      rw [replace, ih (unsupplied.mono (mem_subtrees_of_child List.mem_cons_self
        operand.self_mem_subtrees))]
  | binary lhs op rhs ihLeft ihRight =>
      rw [replace,
        ihLeft (unsupplied.mono (mem_subtrees_of_child List.mem_cons_self lhs.self_mem_subtrees)),
        ihRight (unsupplied.mono (mem_subtrees_of_child
          (List.mem_cons_of_mem _ List.mem_cons_self) rhs.self_mem_subtrees))]
  | qualified kind inner ih =>
      rw [replace, ih (unsupplied.mono (inner_mem_subtrees kind inner))]

/-- Without supplies, the meaning is the tree without its qualifiers. -/
theorem meaning_of_unsupplied (noFirst : tree.Unsupplied first)
    (noSecond : tree.Unsupplied second) : tree.meaning first second = tree.erase := by
  rw [meaning, replace_of_unsupplied noFirst, replace_of_unsupplied noSecond]

theorem meaning_unary (op : UnaryOp) (operand : Tree) :
    (unary op operand).meaning first second = unary op (operand.meaning first second) := rfl

theorem meaning_binary (lhs : Tree) (op : BinaryOp) (rhs : Tree) :
    (binary lhs op rhs).meaning first second =
      binary (lhs.meaning first second) op (rhs.meaning first second) := rfl

theorem meaning_qualified (kind : Qualifier) (inner : Tree) :
    (qualified kind inner).meaning first second = inner.meaning first second := rfl

/-- A replacement of the same meaning keeps the meaning of the whole. -/
theorem meaning_substitute
    (same : replacement.meaning first second = target.meaning first second) (tree : Tree) :
    (tree.substitute target replacement).meaning first second = tree.meaning first second := by
  induction tree with
  | constant type components =>
      by_cases whole : constant type components = target
      · rw [whole, substitute_self, same]
      · rw [substitute_leaf rfl whole]
  | var type name =>
      by_cases whole : var type name = target
      · rw [whole, substitute_self, same]
      · rw [substitute_leaf rfl whole]
  | unary op operand ih =>
      by_cases whole : unary op operand = target
      · rw [whole, substitute_self, same]
      · rw [substitute_unary op whole, meaning_unary, meaning_unary, ih]
  | binary lhs op rhs ihLeft ihRight =>
      by_cases whole : binary lhs op rhs = target
      · rw [whole, substitute_self, same]
      · rw [substitute_binary op whole, meaning_binary, meaning_binary, ihLeft, ihRight]
  | qualified kind inner ih =>
      by_cases whole : qualified kind inner = target
      · rw [whole, substitute_self, same]
      · rw [substitute_qualified kind whole, meaning_qualified, meaning_qualified, ih]

/-! ### Taking a qualifier away -/

/-- Removing one qualifier does not matter when all are erased. -/
theorem erase_unwrap (removed : Qualifier) (tree : Tree) :
    (tree.unwrap removed).erase = tree.erase := by
  induction tree with
  | constant type components => rfl
  | var type name => rfl
  | unary op operand ih => rw [unwrap, erase, erase, ih]
  | binary lhs op rhs ihLeft ihRight => rw [unwrap, erase, erase, ihLeft, ihRight]
  | qualified kind inner ih =>
      rw [unwrap, erase]
      split
      · exact ih
      · rw [erase, ih]

/-- Removing a qualifier keeps the type. -/
theorem type?_unwrap (removed : Qualifier) (tree : Tree) :
    (tree.unwrap removed).type? = tree.type? := by
  induction tree with
  | constant type components => rfl
  | var type name => rfl
  | unary op operand ih => rw [unwrap, type?, type?, ih]
  | binary lhs op rhs ihLeft ihRight => rw [unwrap, type?, type?, ihLeft, ihRight]
  | qualified kind inner ih =>
      rw [unwrap, type?]
      split
      · exact ih
      · rw [type?, ih]

/-- A qualifier is removed inside the children of a tree that does not have it. -/
theorem children_unwrap {removed : Qualifier} (other : tree.qualifier? ≠ some removed) :
    (tree.unwrap removed).children = tree.children.map (unwrap removed) := by
  cases tree with
  | qualified kind inner =>
      rw [unwrap, if_neg fun same => other (congrArg some same)]
      rfl
  | constant _ _ => rfl
  | var _ _ => rfl
  | unary _ _ => rfl
  | binary _ _ _ => rfl

/-- A tree keeps a qualifier that is not removed. -/
theorem qualifier?_unwrap {removed : Qualifier} (other : tree.qualifier? ≠ some removed) :
    (tree.unwrap removed).qualifier? = tree.qualifier? := by
  cases tree with
  | qualified kind inner =>
      rw [unwrap, if_neg fun same => other (congrArg some same)]
      rfl
  | constant _ _ => rfl
  | var _ _ => rfl
  | unary _ _ => rfl
  | binary _ _ _ => rfl

/-- What is left of a tree without a qualifier comes from subtrees that do not have it. -/
theorem mem_subtrees_unwrap {removed : Qualifier} {small : Tree}
    (member : small ∈ (tree.unwrap removed).subtrees) :
    ∃ origin ∈ tree.subtrees, origin.qualifier? ≠ some removed ∧
      small = origin.unwrap removed := by
  induction tree using induction_on_children with
  | step tree ih =>
      by_cases isRemoved : tree.qualifier? = some removed
      · cases tree with
        | qualified kind inner =>
            cases isRemoved
            rw [unwrap, if_pos rfl] at member
            obtain ⟨origin, present, rest⟩ := ih inner List.mem_cons_self member
            exact ⟨origin, mem_subtrees_of_child List.mem_cons_self present, rest⟩
        | constant _ _ => cases isRemoved
        | var _ _ => cases isRemoved
        | unary _ _ => cases isRemoved
        | binary _ _ _ => cases isRemoved
      · rcases mem_subtrees_iff.mp member with rfl | ⟨child, isChild, inside⟩
        · exact ⟨tree, tree.self_mem_subtrees, isRemoved, rfl⟩
        · rw [children_unwrap isRemoved, List.mem_map] at isChild
          obtain ⟨before, wasChild, rfl⟩ := isChild
          obtain ⟨origin, present, rest⟩ := ih before wasChild inside
          exact ⟨origin, mem_subtrees_of_child wasChild present, rest⟩

/-- Removing a qualifier brings in no leaf. -/
theorem leaf_mem_subtrees_unwrap {removed : Qualifier} {small : Tree}
    (leaf : small.children = []) (member : small ∈ (tree.unwrap removed).subtrees) :
    small ∈ tree.subtrees := by
  obtain ⟨origin, present, other, rfl⟩ := mem_subtrees_unwrap member
  rw [children_unwrap other, List.map_eq_nil_iff] at leaf
  have same : origin.unwrap removed = origin := by
    cases origin with
    | constant _ _ => rfl
    | var _ _ => rfl
    | unary _ _ => cases leaf
    | binary _ _ _ => cases leaf
    | qualified _ _ => cases leaf
  rwa [same]

/-- No subtree has a qualifier that was removed. -/
theorem qualifier?_ne_of_mem_subtrees_unwrap {removed : Qualifier} {small : Tree}
    (member : small ∈ (tree.unwrap removed).subtrees) : small.qualifier? ≠ some removed := by
  obtain ⟨origin, -, other, rfl⟩ := mem_subtrees_unwrap member
  rwa [qualifier?_unwrap other]

/-- A tree without the qualifier stays as it is. -/
theorem unwrap_of_absent {removed : Qualifier}
    (absent : ∀ small ∈ tree.subtrees, small.qualifier? ≠ some removed) :
    tree.unwrap removed = tree := by
  induction tree with
  | constant type components => rfl
  | var type name => rfl
  | unary op operand ih =>
      rw [unwrap, ih fun small member => absent small (List.mem_cons_of_mem _ member)]
  | binary lhs op rhs ihLeft ihRight =>
      rw [unwrap,
        ihLeft fun small member =>
          absent small (List.mem_cons_of_mem _ (List.mem_append_left _ member)),
        ihRight fun small member =>
          absent small (List.mem_cons_of_mem _ (List.mem_append_right _ member))]
  | qualified kind inner ih =>
      have different : kind ≠ removed := fun same =>
        absent (qualified kind inner) (self_mem_subtrees _) (congrArg some same)
      rw [unwrap, if_neg different,
        ih fun small member => absent small (List.mem_cons_of_mem _ member)]

/-- Replacing a qualified tree by what is inside does not change the tree without the
qualifier. -/
theorem unwrap_substitute (removed : Qualifier) (inner tree : Tree) :
    (tree.substitute (qualified removed inner) inner).unwrap removed = tree.unwrap removed := by
  have whole : inner.unwrap removed = (qualified removed inner).unwrap removed := by
    rw [unwrap, if_pos rfl]
  induction tree with
  | constant type components =>
      have different : constant type components ≠ qualified removed inner := nofun
      rw [substitute_leaf rfl different]
  | var type name =>
      have different : var type name ≠ qualified removed inner := nofun
      rw [substitute_leaf rfl different]
  | unary op operand ih =>
      have different : unary op operand ≠ qualified removed inner := nofun
      rw [substitute_unary op different, unwrap, unwrap, ih]
  | binary lhs op rhs ihLeft ihRight =>
      have different : binary lhs op rhs ≠ qualified removed inner := nofun
      rw [substitute_binary op different, unwrap, unwrap, ihLeft, ihRight]
  | qualified kind body ih =>
      by_cases same : qualified kind body = qualified removed inner
      · rw [same, substitute_self, whole]
      · rw [substitute_qualified kind same, unwrap, unwrap, ih]

end Shading.Tree
