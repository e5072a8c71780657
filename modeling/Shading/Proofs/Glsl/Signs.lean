import Mathlib.Data.List.Chain
import Shading.Proofs.Glsl.Unambiguous

/-!
# Signs

Two signs next to each other are read as one token, which is no part of any expression. Signs are
written by negations, subtractions and negative numbers. No two of them are next to each other
across a character that is no sign (`signsApart_split`), so each kind of phrase keeps signs apart if
its parts do, a negation because of the blank before another sign. What is left are the names of
variables, and they alone can bring signs together (`Tree.signsApart_phrase`).
-/

namespace Shading

namespace Glsl

variable {text left right : List Char} {char : Char}

/-! ### Texts -/

/-- No sign is next to another one. -/
def SignsApart (text : List Char) : Prop :=
  text.IsChain fun first second => ¬(first = '-' ∧ second = '-')

/-- Signs are apart if the text has no decrement. -/
theorem signsApart_iff : SignsApart text ↔ ¬"--".toList <:+: text := by
  rw [SignsApart, List.isChain_iff_forall_rel_of_append_cons_cons]
  constructor
  · rintro apart ⟨before, after, rfl⟩
    exact apart (List.append_assoc _ _ _) ⟨rfl, rfl⟩
  · rintro noPair first second before after rfl ⟨rfl, rfl⟩
    exact noPair ⟨before, after, List.append_assoc _ _ _⟩

/-- Around a character that is no sign, the two sides are looked at apart. -/
theorem signsApart_split (notSign : char ≠ '-') :
    SignsApart (left ++ char :: right) ↔ SignsApart left ∧ SignsApart right := by
  simp [SignsApart, List.isChain_append, List.isChain_cons, notSign]

/-- A first character that is no sign does not matter. -/
theorem signsApart_cons (notSign : char ≠ '-') :
    SignsApart (char :: text) ↔ SignsApart text := by
  simp [SignsApart, List.isChain_cons, notSign]

/-- A last character that is no sign does not matter. -/
theorem signsApart_concat (notSign : char ≠ '-') :
    SignsApart (text ++ [char]) ↔ SignsApart text := by
  simp [SignsApart, List.isChain_append, notSign]

/-- A sign may stand before a text that does not start with a sign. -/
theorem signsApart_sign_cons :
    SignsApart ('-' :: text) ↔ text.head? ≠ some '-' ∧ SignsApart text := by
  have isHead : (∀ second ∈ text.head?, ¬('-' = '-' ∧ second = '-')) ↔ text.head? ≠ some '-' := by
    cases text <;> simp
  rw [SignsApart, List.isChain_cons, isHead, SignsApart]

/-- Signs are apart where there are none. -/
theorem signsApart_of_not_mem (noSign : '-' ∉ text) : SignsApart text := by
  rw [signsApart_iff]
  intro pair
  exact noSign (pair.mem (by simp))

/-! ### Phrases -/

/-- In a literal, signs are apart. -/
theorem signsApart_literalChars (number : Binary64) : SignsApart number.literalChars := by
  have noSign : '-' ∉ Binary64.decimalText (Binary64.shownCount number.magnitude) := by
    intro member
    rcases Binary64.isDigit_or_point_of_mem_decimalText member with digit | point
    · cases digit
    · cases point
  rw [Binary64.literalChars, Binary64.signDigits]
  split
  · exact signsApart_sign_cons.mpr
      ⟨Binary64.head?_decimalText_ne _, signsApart_of_not_mem noSign⟩
  · exact signsApart_of_not_mem noSign

/-- The sign of a negation is kept apart from the sign of its operand. -/
theorem signsApart_apart : SignsApart ('-' :: apart text) ↔ SignsApart text := by
  unfold apart
  split
  · rw [signsApart_sign_cons, signsApart_cons (by decide)]
    simp
  next noSign => rw [signsApart_sign_cons, and_iff_right noSign]

/-- At the end of a call, signs are apart if they are in each text. -/
theorem signsApart_closing {texts : List (List Char)} :
    SignsApart (text ++ closing texts) ↔ SignsApart text ∧ ∀ other ∈ texts, SignsApart other := by
  induction texts generalizing text with
  | nil => simp [closing, signsApart_concat]
  | cons first rest ih =>
      rw [closing, signsApart_split (by decide), signsApart_cons (by decide), ih,
        List.forall_mem_cons]

namespace Phrase

variable {operand left right : Phrase}

/-- In a called word, signs are apart. -/
theorem signsApart_word (callee : Callee) : SignsApart callee.word.toList := by
  obtain ⟨-, letters⟩ := Bool.and_eq_true_iff.mp callee.isIdentifier_word
  refine signsApart_of_not_mem fun member => ?_
  cases List.all_eq_true.mp letters '-' member

/-- In a call, signs are apart if they are in the arguments. -/
theorem signsApart_call {callee : Callee} {first : Phrase} {rest : List Phrase} :
    SignsApart (call callee first rest).chars ↔
      SignsApart first.chars ∧ ∀ phrase ∈ rest, SignsApart phrase.chars := by
  rw [chars, signsApart_split (by decide), and_iff_right (signsApart_word callee),
    signsApart_closing, texts_eq_map, List.forall_mem_map]

/-- In a constant, signs are apart. -/
theorem signsApart_ofConstant (type : ValueType) (components : List Binary64) :
    SignsApart (ofConstant type components).chars := by
  unfold ofConstant
  dsimp only
  split
  · exact signsApart_literalChars _
  · refine signsApart_call.mpr ⟨signsApart_literalChars _, fun phrase member => ?_⟩
    obtain ⟨number, -, rfl⟩ := List.mem_map.mp member
    exact signsApart_literalChars number

/-- A unary operator puts no sign next to another one. -/
theorem signsApart_ofUnary (op : UnaryOp) :
    SignsApart (ofUnary op operand).chars ↔ SignsApart operand.chars := by
  cases op with
  | neg =>
      rw [ofUnary, chars, signsApart_cons (by decide), ← List.cons_append,
        signsApart_concat (by decide), signsApart_apart]
  | abs | length => simp [ofUnary, signsApart_call]

/-- The blanks around a symbol keep signs apart. -/
theorem signsApart_operation (symbol : Char) :
    SignsApart (operation left symbol right).chars ↔
      SignsApart left.chars ∧ SignsApart right.chars := by
  -- The symbol may be a sign, but it has a blank on either side.
  have between : SignsApart ([symbol] ++ ' ' :: (right.chars ++ [')'])) ↔
      SignsApart right.chars := by
    rw [signsApart_split (by decide), signsApart_concat (by decide)]
    exact and_iff_right (List.isChain_singleton _)
  rw [chars, signsApart_cons (by decide), signsApart_split (by decide), ← between,
    List.singleton_append]

/-- A binary operator puts no sign next to another one. -/
theorem signsApart_ofBinary (op : BinaryOp) :
    SignsApart (ofBinary op left right).chars ↔
      SignsApart left.chars ∧ SignsApart right.chars := by
  cases op with
  | add | sub | mul | div => exact signsApart_operation _
  | mod | dot | cross => simp [ofBinary, signsApart_call]

end Phrase

end Glsl

/-- The text of a tree keeps signs apart exactly if the names in it do. -/
theorem Tree.signsApart_phrase (tree : Tree) :
    Glsl.SignsApart tree.phrase.chars ↔
      ∀ entry ∈ tree.vars, Glsl.SignsApart entry.2.toList := by
  induction tree with
  | constant type components => simp [phrase, Glsl.Phrase.signsApart_ofConstant]
  | var type name => simp [phrase, Glsl.Phrase.chars]
  | unary op operand ih => rw [phrase, Glsl.Phrase.signsApart_ofUnary, ih, vars_unary]
  | binary lhs op rhs ihLeft ihRight =>
      rw [phrase, Glsl.Phrase.signsApart_ofBinary, ihLeft, ihRight, vars_binary,
        List.forall_mem_append]
  | qualified kind inner ih => rw [phrase, ih, vars_qualified]

variable {pool : Pool} {root : NodeId} {type : ValueType} {text : String}

/-- The text of an expression has two signs next to each other exactly if the name of a variable
below it has, and so it has not if there are no signs in these names. -/
theorem Glsl.print_without_decrement (reachable : pool.Reachable)
    (typed : pool.typeOf root = .ok type) (printed : print pool root = .ok text) :
    ((∀ id varType name, pool.Below root id → pool.node? id = some (.var varType name) →
        '-' ∉ name.toList) → ¬"--".toList <:+: text.toList) ∧
      ("--".toList <:+: text.toList ↔ ∃ id varType name, pool.Below root id ∧
        pool.node? id = some (.var varType name) ∧ "--".toList <:+: name.toList) := by
  have wf := reachable.wellFormed
  obtain ⟨tree, unfolded⟩ := wf.exists_tree?_of_typeOf typed
  obtain ⟨-, sameText⟩ := (wf.print_eq_ok_iff unfolded).mp printed
  have pairs : "--".toList <:+: text.toList ↔ ∃ id varType name, pool.Below root id ∧
      pool.node? id = some (.var varType name) ∧ "--".toList <:+: name.toList := by
    rw [← not_iff_not, ← signsApart_iff, sameText, tree.signsApart_phrase]
    constructor
    · rintro apart ⟨id, varType, name, below, found, pair⟩
      have member := (wf.mem_vars_iff unfolded).mpr ⟨id, below, found⟩
      exact signsApart_iff.mp (apart _ member) pair
    · rintro noPair ⟨varType, name⟩ member
      obtain ⟨id, below, found⟩ := (wf.mem_vars_iff unfolded).mp member
      exact signsApart_iff.mpr fun pair => noPair ⟨id, varType, name, below, found, pair⟩
  refine ⟨fun noSigns hasPair => ?_, pairs⟩
  obtain ⟨id, varType, name, below, found, pair⟩ := pairs.mp hasPair
  exact noSigns id varType name below found (pair.mem (by simp))

/-- A pool with signs of all kinds inside each other, and with signs in a name. -/
def negations : Pool :=
  (Pool.empty 0).afterCalls
    [.constant .float [⟨0xC008000000000000⟩], .unary .neg 0, .unary .neg 1, .binary 2 .sub 0,
      .var .float "x", .binary 3 .sub 4, .unary .neg 5, .var .float "x--", .unary .neg 7]

/-- Signs of all kinds inside each other, printed without a decrement. -/
theorem Glsl.print_without_decrement_negations :
    print negations 6 = .ok "(-(((-(- -3.0)) - -3.0) - x))" ∧
      (∀ id varType name, negations.Below 6 id → negations.node? id = some (.var varType name) →
        '-' ∉ name.toList) ∧
      ¬"--".toList <:+: "(-(((-(- -3.0)) - -3.0) - x))".toList := by
  have reachable : negations.Reachable := ⟨0, _, rfl⟩
  have typed : negations.typeOf 6 = .ok .float := by decide +kernel
  have printed : print negations 6 = .ok "(-(((-(- -3.0)) - -3.0) - x))" := by decide +kernel
  have names : ∀ tree ∈ negations.tree? 6, ∀ entry ∈ tree.vars, '-' ∉ entry.2.toList := by
    decide +kernel
  have wf := reachable.wellFormed
  obtain ⟨tree, unfolded⟩ := wf.exists_tree?_of_typeOf typed
  have noSigns : ∀ id varType name, negations.Below 6 id →
      negations.node? id = some (.var varType name) → '-' ∉ name.toList := by
    intro id varType name below found
    exact names tree unfolded _ ((wf.mem_vars_iff unfolded).mpr ⟨id, below, found⟩)
  obtain ⟨without, -⟩ := print_without_decrement reachable typed printed
  exact ⟨printed, noSigns, without noSigns⟩

end Shading
