import Mathlib.Algebra.Order.BigOperators.Group.List
import Mathlib.Algebra.Order.Group.Nat
import Shading.Proofs.Tree.Basic

/-!
# Substitution in trees

What becomes of the subtrees, the variables, the type and the meaning of a tree when one of its
subtrees is replaced in every place. The meaning of a tree is what is left when variables are
replaced by the trees supplied for them and qualifiers are erased; it does not change when a
subtree is replaced by one of the same meaning (`Tree.meaning_substitute`).
-/

namespace Shading.Tree

variable {tree target replacement small : Tree}

/-! ### Subtrees of a substitution -/

/-- The target itself is replaced. -/
@[simp]
theorem substitute_self (target replacement : Tree) :
    target.substitute target replacement = replacement := by
  unfold substitute
  exact if_pos rfl

/-- In a tree that is not the target, the children are substituted. -/
theorem children_substitute (different : tree ≠ target) (replacement : Tree) :
    (tree.substitute target replacement).children =
      tree.children.map (·.substitute target replacement) := by
  rw [substitute.eq_def, if_neg different]
  cases tree <;> rfl

/-- A tree that is not the target keeps its qualifier. -/
theorem qualifier?_substitute (different : tree ≠ target) (replacement : Tree) :
    (tree.substitute target replacement).qualifier? = tree.qualifier? := by
  rw [substitute.eq_def, if_neg different]
  cases tree <;> rfl

/-- Below a unary operator that is not the target, the operand is substituted. -/
theorem substitute_unary (op : UnaryOp) {operand : Tree} (different : unary op operand ≠ target)
    (replacement : Tree) : (unary op operand).substitute target replacement =
      unary op (operand.substitute target replacement) := by
  rw [substitute, if_neg different]

/-- Below a binary operator that is not the target, both operands are substituted. -/
theorem substitute_binary {lhs : Tree} (op : BinaryOp) {rhs : Tree}
    (different : binary lhs op rhs ≠ target) (replacement : Tree) :
    (binary lhs op rhs).substitute target replacement =
      binary (lhs.substitute target replacement) op (rhs.substitute target replacement) := by
  rw [substitute, if_neg different]

/-- Below a qualifier that is not the target, the inner tree is substituted. -/
theorem substitute_qualified (kind : Qualifier) {inner : Tree}
    (different : qualified kind inner ≠ target) (replacement : Tree) :
    (qualified kind inner).substitute target replacement =
      qualified kind (inner.substitute target replacement) := by
  rw [substitute, if_neg different]

/-- A leaf that is not the target stays as it is. -/
theorem substitute_leaf (leaf : tree.children = []) (different : tree ≠ target)
    (replacement : Tree) : tree.substitute target replacement = tree := by
  rw [substitute.eq_def, if_neg different]
  cases tree with
  | constant type components => rfl
  | var type name => rfl
  | unary op operand => cases leaf
  | binary lhs op rhs => cases leaf
  | qualified kind inner => cases leaf

/-- Nothing happens where the target does not occur. -/
theorem substitute_of_notMem (absent : target ∉ tree.subtrees) (replacement : Tree) :
    tree.substitute target replacement = tree := by
  have different : tree ≠ target := fun same => absent (same ▸ tree.self_mem_subtrees)
  induction tree with
  | constant type components => exact substitute_leaf rfl different replacement
  | var type name => exact substitute_leaf rfl different replacement
  | unary op operand ih =>
      have inside : target ∉ operand.subtrees := fun member =>
        absent (mem_subtrees_of_child List.mem_cons_self member)
      rw [substitute_unary op different,
        ih inside fun same => inside (same ▸ operand.self_mem_subtrees)]
  | binary lhs op rhs ihLeft ihRight =>
      have inLeft : target ∉ lhs.subtrees := fun member =>
        absent (mem_subtrees_of_child List.mem_cons_self member)
      have inRight : target ∉ rhs.subtrees := fun member =>
        absent (mem_subtrees_of_child (List.mem_cons_of_mem _ List.mem_cons_self) member)
      rw [substitute_binary op different,
        ihLeft inLeft fun same => inLeft (same ▸ lhs.self_mem_subtrees),
        ihRight inRight fun same => inRight (same ▸ rhs.self_mem_subtrees)]
  | qualified kind inner ih =>
      have inside : target ∉ inner.subtrees := fun member =>
        absent (mem_subtrees_of_child List.mem_cons_self member)
      rw [substitute_qualified kind different,
        ih inside fun same => inside (same ▸ inner.self_mem_subtrees)]

/-- A subtree of a substitution is inside the replacement or comes from a subtree that is not the
target. -/
theorem mem_subtrees_substitute
    (member : small ∈ (tree.substitute target replacement).subtrees) :
    small ∈ replacement.subtrees ∨
      ∃ origin ∈ tree.subtrees, origin ≠ target ∧
        small = origin.substitute target replacement := by
  induction tree using induction_on_children with
  | step tree ih =>
      by_cases same : tree = target
      · rw [same, substitute_self] at member
        exact Or.inl member
      · rcases mem_subtrees_iff.mp member with rfl | ⟨child, isChild, inside⟩
        · exact Or.inr ⟨tree, tree.self_mem_subtrees, same, rfl⟩
        · rw [children_substitute same, List.mem_map] at isChild
          obtain ⟨before, wasChild, rfl⟩ := isChild
          rcases ih before wasChild inside with new | ⟨origin, present, different, eq⟩
          · exact Or.inl new
          · exact Or.inr ⟨origin, mem_subtrees_of_child wasChild present, different, eq⟩

/-- What becomes of a subtree is a subtree, unless it is lost inside the target. -/
theorem substitute_mem_subtrees (member : small ∈ tree.subtrees)
    (kept : small ∈ target.subtrees → small = target) (replacement : Tree) :
    small.substitute target replacement ∈ (tree.substitute target replacement).subtrees := by
  induction tree using induction_on_children with
  | step tree ih =>
      by_cases same : tree = target
      · rw [same] at member
        rw [same, kept member]
        exact self_mem_subtrees _
      · rcases mem_subtrees_iff.mp member with rfl | ⟨child, isChild, inside⟩
        · exact self_mem_subtrees _
        · refine mem_subtrees_of_child ?_ (ih child isChild inside)
          rw [children_substitute same]
          exact List.mem_map_of_mem isChild

/-- If the target is inside a tree, the replacement is inside the result. -/
theorem replacement_mem_subtrees (member : target ∈ tree.subtrees) (replacement : Tree) :
    replacement ∈ (tree.substitute target replacement).subtrees := by
  have kept := substitute_mem_subtrees member (fun _ => rfl) replacement
  rwa [substitute_self] at kept

/-! ### Leaves -/

/-- The leaves of a substitution are those of the tree and of the replacement. -/
theorem leaf_mem_subtrees_substitute (leaf : small.children = [])
    (member : small ∈ (tree.substitute target replacement).subtrees) :
    small ∈ replacement.subtrees ∨ small ∈ tree.subtrees := by
  rcases mem_subtrees_substitute member with new | ⟨origin, present, different, rfl⟩
  · exact Or.inl new
  · rw [children_substitute different, List.map_eq_nil_iff] at leaf
    rw [substitute_leaf leaf different]
    exact Or.inr present

/-! ### Types -/

/-- A replacement of the same type keeps the type of the whole. -/
theorem type?_substitute (sameType : replacement.type? = target.type?) (tree : Tree) :
    (tree.substitute target replacement).type? = tree.type? := by
  induction tree with
  | constant type components =>
      by_cases same : constant type components = target
      · rw [same, substitute_self, sameType]
      · rw [substitute_leaf rfl same]
  | var type name =>
      by_cases same : var type name = target
      · rw [same, substitute_self, sameType]
      · rw [substitute_leaf rfl same]
  | unary op operand ih =>
      by_cases same : unary op operand = target
      · rw [same, substitute_self, sameType]
      · rw [substitute_unary op same, type?, type?, ih]
  | binary lhs op rhs ihLeft ihRight =>
      by_cases same : binary lhs op rhs = target
      · rw [same, substitute_self, sameType]
      · rw [substitute_binary op same, type?, type?, ihLeft, ihRight]
  | qualified kind inner ih =>
      by_cases same : qualified kind inner = target
      · rw [same, substitute_self, sameType]
      · rw [substitute_qualified kind same, type?, type?, ih]

/-! ### Sizes -/

/-- A replacement that is not larger makes no tree larger. -/
theorem length_subtrees_substitute_le
    (smaller : replacement.subtrees.length ≤ target.subtrees.length) (tree : Tree) :
    (tree.substitute target replacement).subtrees.length ≤ tree.subtrees.length := by
  induction tree using induction_on_children with
  | step tree ih =>
      by_cases same : tree = target
      · rwa [same, substitute_self]
      · rw [subtrees_eq, subtrees_eq tree, children_substitute same, List.flatMap_map]
        rw [List.length_cons, List.length_cons, List.length_flatMap, List.length_flatMap]
        exact Nat.succ_le_succ (List.sum_le_sum ih)

/-- A smaller replacement makes a tree smaller if there is something to replace. -/
theorem length_subtrees_substitute_lt
    (smaller : replacement.subtrees.length < target.subtrees.length)
    (member : target ∈ tree.subtrees) :
    (tree.substitute target replacement).subtrees.length < tree.subtrees.length := by
  induction tree using induction_on_children with
  | step tree ih =>
      by_cases same : tree = target
      · rwa [same, substitute_self]
      · obtain ⟨child, isChild, inside⟩ :=
          (mem_subtrees_iff.mp member).resolve_left fun equal => same equal.symm
        rw [subtrees_eq, subtrees_eq tree, children_substitute same, List.flatMap_map]
        rw [List.length_cons, List.length_cons, List.length_flatMap, List.length_flatMap]
        apply Nat.succ_lt_succ
        apply List.sum_lt_sum
        · exact fun other _ => length_subtrees_substitute_le smaller.le other
        · exact ⟨child, isChild, ih child isChild inside⟩

end Shading.Tree
