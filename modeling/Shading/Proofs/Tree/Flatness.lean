import Shading.Proofs.Tree.Extraction

/-!
# Flat qualifiers

A tree is flat in a qualifier if nothing that has the qualifier is inside another tree that has it.
Then no order is wrong: taking out what is listed leaves nothing of the qualifier that is not inside
a tree of another one (`Tree.Flat.covered_extract`). Flatness is kept when other trees are taken
out, so qualifiers can be taken out one after the other until nothing is left
(`Tree.Flat.free_extract_extract`).
-/

namespace Shading.Tree

variable {tree small : Tree} {kinds : List Qualifier} {kind : Qualifier}

/-- Nothing that has the qualifier is inside another tree that has it. -/
def Flat (kind : Qualifier) (tree : Tree) : Prop :=
  ∀ small ∈ tree.subtrees, small.qualifier? = some kind → small.inner.Free [kind]

instance : Decidable (tree.Flat kind) :=
  inferInstanceAs (Decidable (∀ small ∈ tree.subtrees, _))

/-- Everything that has the qualifier is inside a tree of another one. -/
def Covered (kinds : List Qualifier) (kind : Qualifier) (tree : Tree) : Prop :=
  ∀ outer ∈ tree.outermost kinds, outer.qualifier? ≠ some kind

instance : Decidable (tree.Covered kinds kind) :=
  inferInstanceAs (Decidable (∀ outer ∈ tree.outermost kinds, _))

/-! ### Flat trees -/

/-- A subtree is free of the qualifiers that the tree is free of. -/
theorem Free.mono (free : tree.Free kinds) (member : small ∈ tree.subtrees) : small.Free kinds :=
  fun smaller inside => free smaller (mem_subtrees_trans inside member)

/-- Removing a qualifier brings in no other. -/
theorem Free.unwrap (free : tree.Free kinds) (removed : Qualifier) :
    (tree.unwrap removed).Free kinds := by
  intro small member
  obtain ⟨origin, present, other, rfl⟩ := mem_subtrees_unwrap member
  rw [qualifier?_unwrap other]
  exact free origin present

namespace Flat

/-- A subtree of a flat tree is flat. -/
theorem mono (flat : tree.Flat kind) (member : small ∈ tree.subtrees) : small.Flat kind :=
  fun smaller inside => flat smaller (mem_subtrees_trans inside member)

/-- A flat tree stays flat without another qualifier. -/
theorem unwrap (flat : tree.Flat kind) (removed : Qualifier) : (tree.unwrap removed).Flat kind := by
  intro small member isQualified
  obtain ⟨origin, present, other, rfl⟩ := mem_subtrees_unwrap member
  rw [qualifier?_unwrap other] at isQualified
  have free := flat origin present isQualified
  obtain ⟨inner, rfl⟩ := eq_qualified_of_qualifier? isQualified
  rw [Tree.unwrap, if_neg fun same => other (congrArg some same)]
  exact free.unwrap removed

/-- A flat tree stays flat when a variable takes the place of a tree. -/
theorem substitute (flat : tree.Flat kind) (target : Tree) (name : String) :
    (tree.substitute target (target.named name)).Flat kind := by
  intro small member isQualified
  rcases mem_subtrees_substitute member with isNew | ⟨origin, present, different, rfl⟩
  · rw [List.mem_singleton.mp isNew] at isQualified
    cases isQualified
  · rw [qualifier?_substitute different] at isQualified
    have free := flat origin present isQualified
    obtain ⟨inner, rfl⟩ := eq_qualified_of_qualifier? isQualified
    rw [substitute_qualified kind different]
    exact Free.substitute free target name

/-- A flat tree stays flat when trees are taken out of it. -/
theorem extract {targets : List Tree} {names : List String} (flat : tree.Flat kind) :
    (tree.extract targets names).Flat kind :=
  extract_preserves (motive := Flat kind)
    (fun _ target name flat => flat.substitute target name) flat

/-- In a flat tree every order is right. -/
theorem outerFirst (flat : tree.Flat kind) : tree.OuterFirst kinds kind := by
  intro outer isOuter isQualified inner inside innerQualified differs
  have free := flat outer (mem_outermost isOuter).1 isQualified
  obtain ⟨within, rfl⟩ := eq_qualified_of_qualifier? isQualified
  have below := (List.mem_cons.mp inside).resolve_left differs
  exact absurd innerQualified (free inner below kind List.mem_cons_self)

end Flat

/-! ### Covered qualifiers -/

/-- Where no tree has the qualifier, it is covered. -/
theorem Free.covered (free : tree.Free [kind]) : tree.Covered kinds kind :=
  fun outer isOuter => free outer (mem_outermost isOuter).1 kind List.mem_cons_self

/-- If each of the qualifiers is covered, there is none: an outermost one would not be. -/
theorem free_of_covered (covered : ∀ kind ∈ kinds, tree.Covered kinds kind) : tree.Free kinds := by
  refine free_iff_outermost.mpr (List.eq_nil_iff_forall_not_mem.mpr fun outer isOuter => ?_)
  obtain ⟨-, kind, isKind, isQualified⟩ := mem_outermost isOuter
  exact covered kind isKind outer isOuter isQualified

/-- What is listed in a flat tree is taken out of every place that is not covered. -/
theorem Flat.covered_extract {names : List String} (flat : tree.Flat kind) (member : kind ∈ kinds)
    (enough : (tree.listed kind).length ≤ names.length) :
    (tree.extract (tree.listed kind) names).Covered kinds kind :=
  flat.outerFirst.outermost_extract_ne member enough

/-- Taking other trees out uncovers nothing. -/
theorem Covered.extract {other : Qualifier} (covered : tree.Covered kinds other)
    (member : kind ∈ kinds) (different : other ≠ kind) (names : List String) :
    (tree.extract (tree.listed kind) names).Covered kinds other := by
  intro left isLeft isQualified
  obtain ⟨outer, isOuter, sameKind⟩ :=
    (exists_outermost_extract_iff names member different).mp ⟨left, isLeft, isQualified⟩
  exact covered outer isOuter sameKind

/-- Trees of two kinds are extracted from a tree that is flat in both, one kind after the other. If
the other kinds are covered, nothing is left. -/
theorem Flat.free_extract_extract {firstKind secondKind : Qualifier}
    {firstNames secondNames : List String} (flatFirst : tree.Flat firstKind)
    (flatSecond : tree.Flat secondKind) (isFirst : firstKind ∈ kinds)
    (isSecond : secondKind ∈ kinds)
    (others : ∀ kind ∈ kinds, kind ≠ firstKind → kind ≠ secondKind → tree.Covered kinds kind)
    {middle : Tree} (middleEq : middle = tree.extract (tree.listed firstKind) firstNames)
    (firstEnough : (tree.listed firstKind).length ≤ firstNames.length)
    (secondEnough : (middle.listed secondKind).length ≤ secondNames.length) :
    (middle.extract (middle.listed secondKind) secondNames).Free kinds := by
  refine free_of_covered fun kind isKind => ?_
  -- Trees of the second kind are listed after the first rewrite, so flatness has to survive it.
  have flatMiddle : middle.Flat secondKind := by
    rw [middleEq]
    exact flatSecond.extract
  by_cases second : kind = secondKind
  · rw [second]
    exact flatMiddle.covered_extract isSecond secondEnough
  · have covered : middle.Covered kinds kind := by
      rw [middleEq]
      by_cases first : kind = firstKind
      · rw [first]
        exact flatFirst.covered_extract isFirst firstEnough
      · exact (others kind isKind first second).extract isFirst first firstNames
    exact covered.extract isSecond second secondNames

end Shading.Tree
