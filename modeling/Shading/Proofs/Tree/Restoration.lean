import Shading.Proofs.Tree.Extraction

/-!
# Putting extracted trees back

When trees are extracted under new names, the meaning of what is left is the meaning of the whole:
replacing the names by what they stand for undoes the extraction, up to qualifiers. Trees that are
extracted in a second round may hold names of the first round, so the names of the second round are
replaced first.
-/

namespace Shading.Tree

variable {tree : Tree}

/-- Taking out trees keeps the meaning if each variable means what its tree means. -/
theorem meaning_extract {first second : String → Option Tree} {targets : List Tree}
    {names : List String} (tree : Tree)
    (same : List.Forall₂ (fun target name =>
      (target.named name).meaning first second = target.meaning first second) targets names) :
    (tree.extract targets names).meaning first second = tree.meaning first second := by
  induction same generalizing tree with
  | nil => rfl
  | cons head _ ih => rw [extract, ih, meaning_substitute head]

/-- Under names of a family what is inside qualified trees is supplied. -/
def Served (family : String → Prop) (supply : String → Option Tree) :
    List Tree → List String → Prop :=
  List.Forall₂ fun target name => family name ∧
    ∃ kind inner, target = qualified kind inner ∧ supply name = some inner

/-- A tree that avoids the names under which something is supplied is unsupplied. -/
theorem Avoids.unsupplied {family : String → Prop} {supply : String → Option Tree}
    (avoids : tree.Avoids family) (only : ∀ name, ¬family name → supply name = none) :
    tree.Unsupplied supply := by
  intro type name member
  exact only name (avoids type name member)

section TwoRounds

variable {first second : String → Option Tree} {kind : Qualifier} {inner : Tree} {name : String}

/-- A variable for which the first round supplies a tree means that tree, if the first round
supplies nothing inside it. -/
theorem meaning_named_of_first (supplied : first name = some inner)
    (unsupplied : inner.Unsupplied first) :
    ((qualified kind inner).named name).meaning first second =
      (qualified kind inner).meaning first second := by
  rw [meaning_qualified, named, meaning, meaning, replace, supplied, Option.getD_some,
    replace_of_unsupplied unsupplied]

/-- A variable for which the second round supplies a tree means that tree, if neither round supplies
anything inside it. -/
theorem meaning_named_of_second (notFirst : first name = none) (supplied : second name = some inner)
    (noFirst : inner.Unsupplied first) (noSecond : inner.Unsupplied second) :
    ((qualified kind inner).named name).meaning first second =
      (qualified kind inner).meaning first second := by
  rw [meaning_qualified, meaning_of_unsupplied noFirst noSecond, named, meaning, replace, notFirst,
    Option.getD_none, replace, supplied, Option.getD_some]

/-- Trees are extracted in two rounds under names that are new. What is supplied under the names
gives the tree back, up to qualifiers, if the names of the second round are replaced first. -/
theorem meaning_extract_extract {firstFamily secondFamily : String → Prop}
    {firstTargets secondTargets : List Tree} {firstNames secondNames : List String}
    (onlyFirst : ∀ name, ¬secondFamily name → first name = none)
    (onlySecond : ∀ name, ¬firstFamily name → second name = none)
    (apart : ∀ name, firstFamily name → ¬secondFamily name)
    (avoidsFirst : tree.Avoids firstFamily) (avoidsSecond : tree.Avoids secondFamily)
    (firstInside : ∀ target ∈ firstTargets, target ∈ tree.subtrees)
    (secondInside : ∀ target ∈ secondTargets,
      target ∈ (tree.extract firstTargets firstNames).subtrees)
    (firstServed : Served firstFamily second firstTargets firstNames)
    (secondServed : Served secondFamily first secondTargets secondNames) :
    ((tree.extract firstTargets firstNames).extract secondTargets secondNames).meaning
      first second = tree.erase := by
  have firstNew : ∀ name ∈ firstNames, ¬secondFamily name := by
    intro name member
    obtain ⟨place, inside, rfl⟩ := List.mem_iff_getElem.mp member
    obtain ⟨sameLength, served⟩ := List.forall₂_iff_get.mp firstServed
    exact apart _ (served place (sameLength ▸ inside) inside).1
  have avoidsMiddle : (tree.extract firstTargets firstNames).Avoids secondFamily :=
    avoidsSecond.extract firstNew
  -- What the second round takes out may have names of the first, but none of its own.
  have secondSame : List.Forall₂ (fun target name =>
      (target.named name).meaning first second = target.meaning first second)
      secondTargets secondNames := by
    refine ((List.forall₂_and_left secondTargets secondNames).mpr
      ⟨secondInside, secondServed⟩).imp ?_
    rintro target name ⟨inside, -, kind, inner, rfl, supplied⟩
    have innerInside := mem_subtrees_trans (inner_mem_subtrees kind inner) inside
    exact meaning_named_of_first supplied ((avoidsMiddle.mono innerInside).unsupplied onlyFirst)
  -- What the first round takes out is in the original tree, which has names of neither.
  have firstSame : List.Forall₂ (fun target name =>
      (target.named name).meaning first second = target.meaning first second)
      firstTargets firstNames := by
    apply ((List.forall₂_and_left firstTargets firstNames).mpr ⟨firstInside, firstServed⟩).imp
    rintro target name ⟨inside, isName, kind, inner, rfl, supplied⟩
    have innerInside := mem_subtrees_trans (inner_mem_subtrees kind inner) inside
    exact meaning_named_of_second (onlyFirst name (apart name isName)) supplied
      ((avoidsSecond.mono innerInside).unsupplied onlyFirst)
      ((avoidsFirst.mono innerInside).unsupplied onlySecond)
  rw [meaning_extract _ secondSame, meaning_extract _ firstSame]
  exact meaning_of_unsupplied (avoidsSecond.unsupplied onlyFirst)
    (avoidsFirst.unsupplied onlySecond)

end TwoRounds

end Shading.Tree
