import Mathlib.Data.List.Forall2
import Shading.Proofs.Tree.Meaning

/-!
# Extraction of qualified trees

Qualified trees are taken out of a tree one after the other, a variable in the place of each. The
trees to take are listed once, before the first is taken, in the order in which they are met from
the top left. Taking a tree changes every tree around it, and a tree that has changed is no longer
the one that was listed. So a listed tree disappears only if its turn comes before the turn of
everything of its kind inside it. `Tree.OuterFirst` says that this is so for every tree that is not
inside another qualified one. It is enough for nothing to be left
(`Tree.free_extract_extract`) and, when the names of the variables are new, also needed
(`Tree.outerFirst_of_free`).
-/

/-- Repetitions can be left out before or after filtering. -/
theorem List.eraseDups_filter {α : Type} [BEq α] [LawfulBEq α] (keep : α → Bool) (items : List α) :
    (items.filter keep).eraseDups = items.eraseDups.filter keep := by
  match items with
  | [] => rfl
  | first :: rest =>
      have shorter := List.length_filter_le (fun item => !item == first) rest
      have ih := List.eraseDups_filter keep (rest.filter fun item => !item == first)
      rw [List.eraseDups_cons, List.filter_cons, List.filter_cons, ← ih]
      split
      next kept =>
        rw [List.eraseDups_cons, List.filter_filter, List.filter_filter]
        simp only [Bool.and_comm]
      next dropped =>
        rw [List.filter_filter]
        refine congrArg _ (List.filter_congr fun item member => ?_)
        cases keeps : keep item with
        | false => rfl
        | true =>
            have different : item ≠ first := fun same => dropped (same ▸ keeps)
            simp [different]
termination_by items.length
decreasing_by exact Nat.lt_succ_of_le shorter

/-- Without repetitions, no item is repeated. -/
theorem List.nodup_eraseDups {α : Type} [BEq α] [LawfulBEq α] (items : List α) :
    items.eraseDups.Nodup := by
  match items with
  | [] => exact List.nodup_nil
  | first :: rest =>
      have shorter := List.length_filter_le (fun item => !item == first) rest
      rw [List.eraseDups_cons, List.nodup_cons]
      refine ⟨?_, List.nodup_eraseDups _⟩
      simp [List.mem_eraseDups]
termination_by items.length
decreasing_by exact Nat.lt_succ_of_le shorter

namespace Shading.Tree

variable {tree target : Tree} {kinds : List Qualifier} {kind : Qualifier}

/-- The variable of a given name that can stand for a tree. A tree without a type would count as a
scalar. -/
def named (tree : Tree) (name : String) : Tree :=
  var (tree.type?.getD .float) name

/-- Takes trees out, one after the other, with a variable of its name in the place of each. -/
def extract : Tree → List Tree → List String → Tree
  | tree, target :: targets, name :: names =>
    (tree.substitute target (target.named name)).extract targets names
  | tree, _, _ => tree

@[simp]
theorem extract_nil (tree : Tree) (names : List String) : tree.extract [] names = tree := rfl

/-- The trees of a qualifier inside a tree, each once, in the order in which they are met. -/
def listed (tree : Tree) (kind : Qualifier) : List Tree :=
  (tree.subtrees.filter fun small => small.qualifier? = some kind).eraseDups

/-- The trees with one of some qualifiers that are not inside another one, in each place. -/
def outermost (kinds : List Qualifier) : Tree → List Tree
  | constant .. | var .. => []
  | unary _ operand => operand.outermost kinds
  | binary lhs _ rhs => lhs.outermost kinds ++ rhs.outermost kinds
  | qualified kind inner =>
    if kind ∈ kinds then [qualified kind inner] else inner.outermost kinds

/-- Every outermost tree of a qualifier is listed before the trees of its qualifier inside it. -/
def OuterFirst (kinds : List Qualifier) (kind : Qualifier) (tree : Tree) : Prop :=
  ∀ outer ∈ tree.outermost kinds, outer.qualifier? = some kind →
    ∀ inner ∈ outer.subtrees, inner.qualifier? = some kind → inner ≠ outer →
      (tree.listed kind).idxOf outer < (tree.listed kind).idxOf inner

instance : Decidable (tree.OuterFirst kinds kind) :=
  inferInstanceAs (Decidable (∀ outer ∈ tree.outermost kinds, _ → ∀ inner ∈ outer.subtrees, _))

/-- No subtree has one of the qualifiers. -/
def Free (kinds : List Qualifier) (tree : Tree) : Prop :=
  ∀ small ∈ tree.subtrees, ∀ kind ∈ kinds, small.qualifier? ≠ some kind

instance : Decidable (tree.Free kinds) :=
  inferInstanceAs (Decidable (∀ small ∈ tree.subtrees, ∀ kind ∈ kinds, _))

/-- No variable of the tree has a name of a family. -/
def Avoids (family : String → Prop) (tree : Tree) : Prop :=
  ∀ type name, var type name ∈ tree.subtrees → ¬family name

/-- A subtree avoids the names that the tree avoids. -/
theorem Avoids.mono {family : String → Prop} {small : Tree} (avoids : tree.Avoids family)
    (member : small ∈ tree.subtrees) : small.Avoids family := by
  intro type name inside
  exact avoids type name (mem_subtrees_trans inside member)

/-- Removing a qualifier brings in no names. -/
theorem Avoids.unwrap {family : String → Prop} (avoids : tree.Avoids family)
    (removed : Qualifier) : (tree.unwrap removed).Avoids family := by
  intro type name member
  exact avoids type name (leaf_mem_subtrees_unwrap rfl member)

/-- A tree is free of a qualifier that was removed. -/
theorem free_unwrap (removed : Qualifier) (tree : Tree) : (tree.unwrap removed).Free [removed] := by
  intro small member kind isKind
  rw [List.mem_singleton.mp isKind]
  exact qualifier?_ne_of_mem_subtrees_unwrap member

/-- The listed trees are the subtrees that have the qualifier. -/
theorem mem_listed {small : Tree} :
    small ∈ tree.listed kind ↔ small ∈ tree.subtrees ∧ small.qualifier? = some kind := by
  rw [listed, List.mem_eraseDups, List.mem_filter, decide_eq_true_iff]

/-- Only a qualified tree has a qualifier. -/
theorem eq_qualified_of_qualifier? (found : tree.qualifier? = some kind) :
    ∃ inner, tree = qualified kind inner := by
  cases tree with
  | qualified other inner =>
      cases found
      exact ⟨inner, rfl⟩
  | constant _ _ => cases found
  | var _ _ => cases found
  | unary _ _ => cases found
  | binary _ _ _ => cases found

/-! ### Outermost trees -/

/-- A tree that has one of the qualifiers is its own outermost one. -/
theorem outermost_of_mem (found : tree.qualifier? = some kind) (member : kind ∈ kinds) :
    tree.outermost kinds = [tree] := by
  obtain ⟨inner, rfl⟩ := eq_qualified_of_qualifier? found
  rw [outermost, if_pos member]

/-- The outermost trees of another tree are those of its children. -/
theorem outermost_of_notMem (other : ∀ kind ∈ kinds, tree.qualifier? ≠ some kind) :
    tree.outermost kinds = tree.children.flatMap (outermost kinds) := by
  cases tree with
  | constant type components => rfl
  | var type name => rfl
  | unary op operand => simp [outermost, children]
  | binary lhs op rhs => simp [outermost, children]
  | qualified kind inner =>
      have absent : kind ∉ kinds := fun member => other kind member rfl
      simp [outermost, children, absent]

/-- The outermost trees are subtrees that have one of the qualifiers. -/
theorem mem_outermost {small : Tree} (member : small ∈ tree.outermost kinds) :
    small ∈ tree.subtrees ∧ ∃ kind ∈ kinds, small.qualifier? = some kind := by
  induction tree using induction_on_children with
  | step tree ih =>
      by_cases found : ∃ kind ∈ kinds, tree.qualifier? = some kind
      · obtain ⟨kind, isMember, qualifier⟩ := found
        rw [outermost_of_mem qualifier isMember, List.mem_singleton] at member
        rw [member]
        exact ⟨tree.self_mem_subtrees, kind, isMember, qualifier⟩
      · rw [outermost_of_notMem fun kind isMember same => found ⟨kind, isMember, same⟩,
          List.mem_flatMap] at member
        obtain ⟨child, isChild, inside⟩ := member
        obtain ⟨below, qualifier⟩ := ih child isChild inside
        exact ⟨mem_subtrees_of_child isChild below, qualifier⟩

/-- A tree is free of qualifiers if it has no outermost tree with one of them. -/
theorem free_iff_outermost : tree.Free kinds ↔ tree.outermost kinds = [] := by
  constructor
  · intro free
    apply List.eq_nil_iff_forall_not_mem.mpr
    intro small member
    obtain ⟨inside, kind, isMember, qualifier⟩ := mem_outermost member
    exact free small inside kind isMember qualifier
  · intro none
    induction tree using induction_on_children with
    | step tree ih =>
        have unqualified : ∀ kind ∈ kinds, tree.qualifier? ≠ some kind := by
          intro kind isMember qualifier
          rw [outermost_of_mem qualifier isMember] at none
          cases none
        rw [outermost_of_notMem unqualified, List.flatMap_eq_nil_iff] at none
        intro small member
        rcases mem_subtrees_iff.mp member with rfl | ⟨child, isChild, inside⟩
        · exact unqualified
        · exact ih child isChild (none child isChild) small inside

/-- Where no tree has the qualifier, every order is right. -/
theorem Free.outerFirst (free : tree.Free [kind]) : tree.OuterFirst kinds kind := by
  intro outer isOuter found
  exact absurd found (free outer (mem_outermost isOuter).1 kind List.mem_cons_self)

/-- A substitution takes away the outermost trees that are its target and changes the others. -/
theorem outermost_substitute {replacement : Tree} (found : target.qualifier? = some kind)
    (member : kind ∈ kinds) (plain : replacement.outermost kinds = []) (tree : Tree) :
    (tree.substitute target replacement).outermost kinds =
      (tree.outermost kinds).filterMap fun outer =>
        if outer = target then none else some (outer.substitute target replacement) := by
  induction tree using induction_on_children with
  | step tree ih =>
      by_cases same : tree = target
      · rw [same, substitute_self, plain, outermost_of_mem found member]
        simp
      · by_cases qualifies : ∃ kind ∈ kinds, tree.qualifier? = some kind
        · obtain ⟨other, isMember, qualifier⟩ := qualifies
          have kept : (tree.substitute target replacement).qualifier? = some other := by
            rw [qualifier?_substitute same, qualifier]
          rw [outermost_of_mem kept isMember, outermost_of_mem qualifier isMember]
          simp [same]
        · have other : ∀ kind ∈ kinds, tree.qualifier? ≠ some kind :=
            fun kind isMember found => qualifies ⟨kind, isMember, found⟩
          have otherAfter :
              ∀ kind ∈ kinds, (tree.substitute target replacement).qualifier? ≠ some kind := by
            intro kind isMember
            rw [qualifier?_substitute same]
            exact other kind isMember
          rw [outermost_of_notMem otherAfter, outermost_of_notMem other,
            children_substitute same, List.flatMap_map, List.filterMap_flatMap]
          exact List.flatMap_congr fun child isChild => ih child isChild

/-! ### What an extraction leaves -/

/-- What becomes of an outermost tree: nothing from the turn in which it is the tree to take. -/
def survivor : Tree → List Tree → List String → Option Tree
  | tree, target :: targets, name :: names =>
    if tree = target then none
    else (tree.substitute target (target.named name)).survivor targets names
  | tree, _, _ => some tree

/-- The outermost trees after an extraction are what survives of those before it. -/
theorem outermost_extract {targets : List Tree} (names : List String) (tree : Tree)
    (qualified : ∀ target ∈ targets, target.qualifier? = some kind) (member : kind ∈ kinds) :
    (tree.extract targets names).outermost kinds =
      (tree.outermost kinds).filterMap fun outer => outer.survivor targets names := by
  induction targets generalizing tree names with
  | nil => simp [extract, survivor]
  | cons target targets ih =>
      cases names with
      | nil => simp [extract, survivor]
      | cons name names =>
          have qualifiedLater : ∀ later ∈ targets, later.qualifier? = some kind :=
            fun later isLater => qualified later (List.mem_cons_of_mem _ isLater)
          rw [extract, ih names _ qualifiedLater,
            outermost_substitute (qualified target List.mem_cons_self) member rfl,
            List.filterMap_filterMap]
          refine congrArg (List.filterMap · _) (funext fun outer => ?_)
          rw [survivor]
          split <;> rfl

/-- What survives of a tree has its qualifier. -/
theorem qualifier?_of_survivor {targets : List Tree} {names : List String} {left : Tree}
    (survives : tree.survivor targets names = some left) :
    left.qualifier? = tree.qualifier? := by
  induction targets generalizing tree names with
  | nil => cases survives; rfl
  | cons target targets ih =>
      cases names with
      | nil => cases survives; rfl
      | cons name names =>
          rw [survivor] at survives
          split at survives
          next => cases survives
          next different => rw [ih survives, qualifier?_substitute different]

/-- A tree of another kind than those to take survives. -/
theorem survivor_of_qualifier?_ne {targets : List Tree} (names : List String)
    (other : ∀ target ∈ targets, target.qualifier? ≠ tree.qualifier?) :
    ∃ left, tree.survivor targets names = some left := by
  induction targets generalizing tree names with
  | nil => exact ⟨tree, rfl⟩
  | cons target targets ih =>
      cases names with
      | nil => exact ⟨tree, rfl⟩
      | cons name names =>
          have different : tree ≠ target := fun same =>
            other target List.mem_cons_self (same ▸ rfl)
          rw [survivor, if_neg different]
          apply ih names
          intro later isLater
          rw [qualifier?_substitute different]
          exact other later (List.mem_cons_of_mem _ isLater)

/-- A tree whose turn comes before that of every tree inside it disappears. -/
theorem survivor_eq_none {targets : List Tree} {names : List String}
    (enough : targets.length ≤ names.length) (member : tree ∈ targets)
    (first : ∀ target ∈ targets, target ∈ tree.subtrees → target ≠ tree →
      targets.idxOf tree < targets.idxOf target) :
    tree.survivor targets names = none := by
  induction targets generalizing names with
  | nil => cases member
  | cons target targets ih =>
      cases names with
      | nil => cases enough
      | cons name names =>
          rw [survivor]
          split
          next => rfl
          next different =>
            have outside : target ∉ tree.subtrees := by
              intro inside
              have before := first target List.mem_cons_self inside (Ne.symm different)
              rw [List.idxOf_cons_self] at before
              exact Nat.not_lt_zero _ before
            rw [substitute_of_notMem outside]
            refine ih (Nat.le_of_succ_le_succ enough)
              ((List.mem_cons.mp member).resolve_left different) ?_
            intro later isLater inside differs
            have before := first later (List.mem_cons_of_mem _ isLater) inside differs
            have notHead : target ≠ later := fun same => outside (same ▸ inside)
            rw [List.idxOf_cons_ne _ (Ne.symm different), List.idxOf_cons_ne _ notHead] at before
            exact Nat.lt_of_succ_lt_succ before

/-- A tree with a variable that occurs in no tree to take survives. -/
theorem survivor_of_var_mem {targets : List Tree} (names : List String) {type : ValueType}
    {name : String} (member : var type name ∈ tree.subtrees)
    (absent : ∀ target ∈ targets, var type name ∉ target.subtrees) :
    ∃ left, tree.survivor targets names = some left := by
  induction targets generalizing tree names with
  | nil => exact ⟨tree, rfl⟩
  | cons target targets ih =>
      cases names with
      | nil => exact ⟨tree, rfl⟩
      | cons next names =>
          have outside := absent target List.mem_cons_self
          have different : tree ≠ target := fun same => outside (same ▸ member)
          have notTarget : var type name ≠ target := fun same =>
            outside (same ▸ self_mem_subtrees _)
          have kept := substitute_mem_subtrees member (fun inside => absurd inside outside)
            (target.named next)
          rw [substitute_leaf rfl notTarget] at kept
          rw [survivor, if_neg different]
          exact ih names kept fun later isLater => absent later (List.mem_cons_of_mem _ isLater)

/-- A tree in which another one is taken first survives, when the variables are new. -/
theorem survivor_of_inner_first {targets : List Tree} {names : List String}
    {family : String → Prop} {inner : Tree} (inside : inner ∈ tree.subtrees)
    (member : inner ∈ targets) (differs : inner ≠ tree)
    (first : targets.idxOf inner ≤ targets.idxOf tree)
    (new : ∀ name ∈ names, family name) (avoids : ∀ target ∈ targets, target.Avoids family) :
    ∃ left, tree.survivor targets names = some left := by
  induction targets generalizing names with
  | nil => cases member
  | cons target targets ih =>
      cases names with
      | nil => exact ⟨tree, rfl⟩
      | cons name names =>
          have avoidsLater : ∀ later ∈ targets, later.Avoids family := fun later isLater =>
            avoids later (List.mem_cons_of_mem _ isLater)
          have different : tree ≠ target := by
            intro same
            rw [same, List.idxOf_cons_self, List.idxOf_cons_ne _ (same ▸ Ne.symm differs)] at first
            exact Nat.not_succ_le_zero _ first
          rw [survivor, if_neg different]
          by_cases taken : target ∈ tree.subtrees
          · have mark : target.named name ∈ (tree.substitute target (target.named name)).subtrees :=
              replacement_mem_subtrees taken _
            apply survivor_of_var_mem names mark
            intro later isLater occurs
            exact avoidsLater later isLater _ _ occurs (new name List.mem_cons_self)
          · have notHead : target ≠ inner := fun same => taken (same ▸ inside)
            rw [substitute_of_notMem taken]
            rw [List.idxOf_cons_ne _ notHead, List.idxOf_cons_ne _ (Ne.symm different)] at first
            exact ih ((List.mem_cons.mp member).resolve_left (Ne.symm notHead))
              (Nat.le_of_succ_le_succ first)
              (fun later isLater => new later (List.mem_cons_of_mem _ isLater)) avoidsLater

/-! ### Extraction of everything that is listed -/

/-- A listed tree has the qualifier it is listed for. -/
theorem qualifier?_of_mem_listed {target : Tree} (member : target ∈ tree.listed kind) :
    target.qualifier? = some kind :=
  (mem_listed.mp member).2

/-- In the right order, no outermost tree of the kind is left. -/
theorem OuterFirst.outermost_extract_ne {names : List String}
    (ordered : tree.OuterFirst kinds kind) (member : kind ∈ kinds)
    (enough : (tree.listed kind).length ≤ names.length) :
    ∀ left ∈ (tree.extract (tree.listed kind) names).outermost kinds,
      left.qualifier? ≠ some kind := by
  intro left isLeft qualifier
  rw [outermost_extract names tree (fun _ => qualifier?_of_mem_listed) member,
    List.mem_filterMap] at isLeft
  obtain ⟨outer, isOuter, survives⟩ := isLeft
  rw [qualifier?_of_survivor survives] at qualifier
  have isListed : outer ∈ tree.listed kind :=
    mem_listed.mpr ⟨(mem_outermost isOuter).1, qualifier⟩
  have gone : outer.survivor (tree.listed kind) names = none := by
    apply survivor_eq_none enough isListed
    intro inner innerListed inside differs
    exact ordered outer isOuter qualifier inner inside (qualifier?_of_mem_listed innerListed)
      differs
  rw [gone] at survives
  cases survives

/-- In the wrong order, an outermost tree of the kind is left, when the variables are new. -/
theorem exists_outermost_extract {names : List String} {family : String → Prop}
    (unordered : ¬tree.OuterFirst kinds kind) (member : kind ∈ kinds)
    (new : ∀ name ∈ names, family name) (avoids : tree.Avoids family) :
    ∃ left ∈ (tree.extract (tree.listed kind) names).outermost kinds,
      left.qualifier? = some kind := by
  simp only [OuterFirst, not_forall, Nat.not_lt] at unordered
  obtain ⟨outer, isOuter, qualifier, inner, inside, innerQualifier, differs, first⟩ := unordered
  have outerInside := (mem_outermost isOuter).1
  have innerListed : inner ∈ tree.listed kind :=
    mem_listed.mpr ⟨mem_subtrees_trans inside outerInside, innerQualifier⟩
  obtain ⟨left, survives⟩ := survivor_of_inner_first inside innerListed differs first new
    fun target isTarget => avoids.mono (mem_listed.mp isTarget).1
  refine ⟨left, ?_, (qualifier?_of_survivor survives).trans qualifier⟩
  rw [outermost_extract names tree (fun _ => qualifier?_of_mem_listed) member]
  exact List.mem_filterMap.mpr ⟨outer, isOuter, survives⟩

/-- Outermost trees of another kind are neither lost nor made. -/
theorem exists_outermost_extract_iff {other : Qualifier} (names : List String)
    (member : kind ∈ kinds) (different : other ≠ kind) :
    (∃ left ∈ (tree.extract (tree.listed kind) names).outermost kinds,
        left.qualifier? = some other) ↔
      ∃ outer ∈ tree.outermost kinds, outer.qualifier? = some other := by
  rw [outermost_extract names tree (fun _ => qualifier?_of_mem_listed) member]
  constructor
  · rintro ⟨left, isLeft, qualifier⟩
    obtain ⟨outer, isOuter, survives⟩ := List.mem_filterMap.mp isLeft
    exact ⟨outer, isOuter, (qualifier?_of_survivor survives).symm.trans qualifier⟩
  · rintro ⟨outer, isOuter, qualifier⟩
    have others : ∀ target ∈ tree.listed kind, target.qualifier? ≠ outer.qualifier? := by
      intro target isTarget same
      rw [qualifier?_of_mem_listed isTarget, qualifier] at same
      exact different (Option.some.inj same).symm
    obtain ⟨left, survives⟩ := survivor_of_qualifier?_ne names others
    exact ⟨left, List.mem_filterMap.mpr ⟨outer, isOuter, survives⟩,
      (qualifier?_of_survivor survives).trans qualifier⟩

/-- What holds of a tree whenever one tree is taken out of it holds when many are. -/
theorem extract_preserves {motive : Tree → Prop}
    (step : ∀ tree target name, motive tree → motive (tree.substitute target (target.named name)))
    {targets : List Tree} {names : List String} (holds : motive tree) :
    motive (tree.extract targets names) := by
  induction targets generalizing tree names with
  | nil => exact holds
  | cons target targets ih =>
      cases names with
      | nil => exact holds
      | cons name names => exact ih (step tree target name holds)

/-- A variable in the place of a tree brings in no qualifier. -/
theorem Free.substitute (free : tree.Free kinds) (target : Tree) (name : String) :
    (tree.substitute target (target.named name)).Free kinds := by
  intro small member
  rcases mem_subtrees_substitute member with isNew | ⟨origin, present, different, rfl⟩
  · rw [List.mem_singleton.mp isNew]
    intro kind _ found
    cases found
  · rw [qualifier?_substitute different]
    exact free origin present

/-- Extraction adds no qualifier. -/
theorem Free.extract {targets : List Tree} {names : List String} (free : tree.Free kinds) :
    (tree.extract targets names).Free kinds :=
  extract_preserves (motive := Free kinds) (fun _ target name free => free.substitute target name)
    free

section TwoKinds

variable {firstKind secondKind : Qualifier} {firstNames secondNames : List String}

/-- Trees of two kinds are extracted, first those of one kind and then, from what is left, those of
the other. Nothing of either kind is left if both orders are right. -/
theorem free_extract_extract (different : firstKind ≠ secondKind) {middle : Tree}
    (middleEq : middle = tree.extract (tree.listed firstKind) firstNames)
    (firstEnough : (tree.listed firstKind).length ≤ firstNames.length)
    (secondEnough : (middle.listed secondKind).length ≤ secondNames.length)
    (firstOrdered : tree.OuterFirst [firstKind, secondKind] firstKind)
    (secondOrdered : middle.OuterFirst [firstKind, secondKind] secondKind) :
    (middle.extract (middle.listed secondKind) secondNames).Free [firstKind, secondKind] := by
  have isFirst : firstKind ∈ [firstKind, secondKind] := List.mem_cons_self
  have isSecond : secondKind ∈ [firstKind, secondKind] :=
    List.mem_cons_of_mem _ List.mem_cons_self
  refine free_iff_outermost.mpr (List.eq_nil_iff_forall_not_mem.mpr ?_)
  intro left isLeft
  obtain ⟨-, kind, isKind, qualifier⟩ := mem_outermost isLeft
  rcases List.mem_cons.mp isKind with rfl | last
  · obtain ⟨outer, isOuter, outerQualifier⟩ :=
      (exists_outermost_extract_iff secondNames isSecond different).mp ⟨left, isLeft, qualifier⟩
    rw [middleEq] at isOuter
    exact firstOrdered.outermost_extract_ne isFirst firstEnough outer isOuter outerQualifier
  · rw [List.mem_singleton.mp last] at qualifier
    exact secondOrdered.outermost_extract_ne isSecond secondEnough left isLeft qualifier

/-- If nothing of either kind is left and the names of the variables are new, both orders are
right. -/
theorem outerFirst_of_free (different : firstKind ≠ secondKind) {middle : Tree}
    (middleEq : middle = tree.extract (tree.listed firstKind) firstNames)
    {firstFamily secondFamily : String → Prop}
    (firstNew : ∀ name ∈ firstNames, firstFamily name)
    (secondNew : ∀ name ∈ secondNames, secondFamily name)
    (firstAvoids : tree.Avoids firstFamily) (secondAvoids : middle.Avoids secondFamily)
    (free : (middle.extract (middle.listed secondKind) secondNames).Free
      [firstKind, secondKind]) :
    tree.OuterFirst [firstKind, secondKind] firstKind ∧
      middle.OuterFirst [firstKind, secondKind] secondKind := by
  have isFirst : firstKind ∈ [firstKind, secondKind] := List.mem_cons_self
  have isSecond : secondKind ∈ [firstKind, secondKind] :=
    List.mem_cons_of_mem _ List.mem_cons_self
  have none := List.eq_nil_iff_forall_not_mem.mp (free_iff_outermost.mp free)
  constructor
  · by_contra unordered
    have remains := exists_outermost_extract unordered isFirst firstNew firstAvoids
    rw [← middleEq] at remains
    obtain ⟨left, isLeft, -⟩ :=
      (exists_outermost_extract_iff secondNames isSecond different).mpr remains
    exact none left isLeft
  · by_contra unordered
    obtain ⟨left, isLeft, -⟩ :=
      exists_outermost_extract unordered isSecond secondNew secondAvoids
    exact none left isLeft

end TwoKinds

/-! ### Variables and types -/

/-- An extraction brings in no names but those it gives. -/
theorem Avoids.extract {family : String → Prop} {targets : List Tree} {names : List String}
    (avoids : tree.Avoids family) (other : ∀ name ∈ names, ¬family name) :
    (tree.extract targets names).Avoids family := by
  induction targets generalizing tree names with
  | nil => exact avoids
  | cons target targets ih =>
      cases names with
      | nil => exact avoids
      | cons name names =>
          refine ih ?_ fun later isLater => other later (List.mem_cons_of_mem _ isLater)
          intro type used member
          rcases leaf_mem_subtrees_substitute rfl member with isNew | old
          · cases List.mem_singleton.mp isNew
            exact other name List.mem_cons_self
          · exact avoids type used old

/-- The variable that stands for a tree has the type of the tree. -/
theorem type?_named {name : String} (typed : tree.type?.isSome) :
    (tree.named name).type? = tree.type? := by
  obtain ⟨type, typeEq⟩ := Option.isSome_iff_exists.mp typed
  rw [named, typeEq]
  rfl

/-- Variables have the types of the trees that they stand for. -/
theorem type?_extract {targets : List Tree} (typed : ∀ target ∈ targets, target.type?.isSome)
    (names : List String) (tree : Tree) : (tree.extract targets names).type? = tree.type? := by
  induction targets generalizing tree names with
  | nil => rfl
  | cons target targets ih =>
      cases names with
      | nil => rfl
      | cons name names =>
          rw [extract, ih (fun later isLater => typed later (List.mem_cons_of_mem _ isLater)),
            type?_substitute (type?_named (typed target List.mem_cons_self))]

/-! ### Unwrapping one after the other -/

/-- Every tree is listed once. -/
theorem nodup_listed (tree : Tree) (kind : Qualifier) : (tree.listed kind).Nodup :=
  List.nodup_eraseDups _

/-- Nothing is listed exactly if no subtree has the qualifier. -/
theorem listed_eq_nil_iff :
    tree.listed kind = [] ↔ ∀ small ∈ tree.subtrees, small.qualifier? ≠ some kind := by
  rw [List.eq_nil_iff_forall_not_mem]
  apply forall_congr'
  intro small
  rw [mem_listed, not_and]

/-- What is listed after a listed tree is replaced by what is inside it comes from another listed
tree. -/
theorem mem_listed_substitute {inner small : Tree}
    (listed : qualified kind inner ∈ tree.listed kind)
    (member : small ∈ (tree.substitute (qualified kind inner) inner).listed kind) :
    ∃ origin ∈ tree.listed kind, origin ≠ qualified kind inner ∧
      origin.substitute (qualified kind inner) inner = small := by
  obtain ⟨inside, isKind⟩ := mem_listed.mp member
  rcases mem_subtrees_substitute inside with below | ⟨origin, present, different, rfl⟩
  · -- The replacement does not hold the tree that it replaces.
    have unchanged : qualified kind inner ∉ small.subtrees := fun again =>
      qualified_notMem_subtrees kind inner (mem_subtrees_trans again below)
    have present : small ∈ tree.subtrees :=
      mem_subtrees_trans (mem_subtrees_trans below (inner_mem_subtrees kind inner))
        (mem_listed.mp listed).1
    refine ⟨small, mem_listed.mpr ⟨present, isKind⟩, ?_, substitute_of_notMem unchanged inner⟩
    rintro rfl
    exact unchanged (self_mem_subtrees _)
  · rw [qualifier?_substitute different] at isKind
    exact ⟨origin, mem_listed.mpr ⟨present, isKind⟩, different, rfl⟩

/-- Replacing a listed tree by what is inside it makes the list shorter. -/
theorem length_listed_substitute_lt {inner : Tree}
    (listed : qualified kind inner ∈ tree.listed kind) :
    ((tree.substitute (qualified kind inner) inner).listed kind).length <
      (tree.listed kind).length := by
  let others := (tree.listed kind).erase (qualified kind inner)
  have within : (tree.substitute (qualified kind inner) inner).listed kind ⊆
      others.map (·.substitute (qualified kind inner) inner) := by
    intro small member
    obtain ⟨origin, present, different, rfl⟩ := mem_listed_substitute listed member
    exact List.mem_map_of_mem ((List.mem_erase_of_ne different).mpr present)
  have shorter := (nodup_listed _ kind).length_le_of_subset within
  rw [List.length_map, List.length_erase_of_mem listed] at shorter
  have positive := List.length_pos_of_mem listed
  omega

/-! ### Sizes -/

/-- An extraction does not add subtrees. -/
theorem length_subtrees_extract_le (tree : Tree) (targets : List Tree) (names : List String) :
    (tree.extract targets names).subtrees.length ≤ tree.subtrees.length := by
  apply extract_preserves (motive := fun left => left.subtrees.length ≤ tree.subtrees.length)
  · intro left target name notLarger
    have smaller : (target.named name).subtrees.length ≤ target.subtrees.length :=
      List.length_pos_of_mem target.self_mem_subtrees
    exact (length_subtrees_substitute_le smaller left).trans notLarger
  · exact Nat.le_refl _

/-- Nothing is listed if taking out what is listed changes nothing. -/
theorem listed_eq_nil_of_extract_le {names : List String}
    (enough : (tree.listed kind).length ≤ names.length)
    (notSmaller :
      tree.subtrees.length ≤ (tree.extract (tree.listed kind) names).subtrees.length) :
    tree.listed kind = [] := by
  cases listed : tree.listed kind with
  | nil => rfl
  | cons target targets =>
      have member : target ∈ tree.listed kind := listed ▸ List.mem_cons_self
      obtain ⟨inner, rfl⟩ := eq_qualified_of_qualifier? (qualifier?_of_mem_listed member)
      rw [listed] at enough notSmaller
      cases names with
      | nil => cases enough
      | cons name names =>
          have positive := List.length_pos_of_mem inner.self_mem_subtrees
          have smaller : ((qualified kind inner).named name).subtrees.length <
              (qualified kind inner).subtrees.length := Nat.succ_lt_succ positive
          have first := length_subtrees_substitute_lt smaller (mem_listed.mp member).1
          exact absurd (notSmaller.trans (length_subtrees_extract_le _ targets names)) first.not_ge

end Shading.Tree
