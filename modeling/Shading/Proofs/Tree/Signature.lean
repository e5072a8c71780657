import Mathlib.Data.List.Nodup
import Shading.Pool.Signature
import Shading.Proofs.Binary64.Decimal
import Shading.Proofs.Text
import Shading.Proofs.Tree.Basic

/-!
# Signatures of trees

The signature of a tree writes out its structure. It starts with a word that tells the kind of the
tree, and every word in it ends before a separator, so it is read from the left in one way, whatever
comes after it (`Tree.signature_append_inj`). For that, names must be words, and the undefined
numbers, which are all displayed alike, must be the same number.
-/

namespace Shading

variable {rest others : List Char}

/-! ### Words -/

/-- The characters that separate the parts of a signature. -/
def separators : List Char :=
  ['(', ')', '[', ']', '\x7b', '\x7d', ',', ':', '=']

/-- The text has no separators, as it is with letters, digits and underscores. -/
def isWord (text : String) : Bool :=
  text.toList.all fun char => !separators.elem char

/-- A word ends before a separator. -/
theorem word_append_inj {word other : String} {char next : Char} (inWord : isWord word = true)
    (inOther : isWord other = true) (ends : char ∈ separators) (otherEnds : next ∈ separators)
    (same : word.toList ++ char :: rest = other.toList ++ next :: others) :
    word = other ∧ char = next ∧ rest = others := by
  have outside : ∀ {char : Char}, char ∈ separators → (!separators.elem char) = false := by
    intro char separates
    rw [List.elem_eq_true_of_mem separates]
    rfl
  obtain ⟨sameWord, sameRest⟩ := append_inj_of_class (List.all_eq_true.mp inWord)
    (List.all_eq_true.mp inOther) (outside_cons (outside ends)) (outside_cons (outside otherEnds))
    same
  exact ⟨String.toList_inj.mp sameWord, List.cons.inj sameRest⟩

/-- A word and what comes after it start with a separator only if the word is empty. -/
theorem head?_word_append_ne {word : String} {close : Char} (inWord : isWord word = true)
    (closes : close ∈ separators) (starts : word.toList = [] → rest.head? ≠ some close) :
    (word.toList ++ rest).head? ≠ some close := by
  cases spelled : word.toList with
  | nil => exact starts spelled
  | cons first letters =>
      rintro ⟨⟩
      have inside := List.all_eq_true.mp inWord close (spelled ▸ List.mem_cons_self)
      rw [List.elem_eq_true_of_mem closes] at inside
      cases inside

/-- A list goes on with a separator. -/
theorem GoesOn.exists_separator {close : Char} (goesOn : GoesOn close rest)
    (closes : close ∈ separators) : ∃ char after, rest = char :: after ∧ char ∈ separators := by
  obtain ⟨char, after, rfl, rfl | rfl⟩ := goesOn
  · exact ⟨',', after, rfl, by decide⟩
  · exact ⟨char, after, rfl, closes⟩

/-- A displayed number is a word. -/
theorem isWord_display (number : Binary64) : isWord number.display = true := by
  have noDigit : separators.all (!·.isDigit) = true := by decide
  have noLetter : ['-', '.', 'N', 'a', 'i', 'n', 'f'].all (!separators.elem ·) = true := by decide
  apply List.all_eq_true.mpr
  intro char member
  rcases Binary64.mem_display member with digit | letter
  · have inside : char ∉ separators := by
      intro separates
      have outside := List.all_eq_true.mp noDigit char separates
      rw [digit] at outside
      cases outside
    simpa using inside
  · exact List.all_eq_true.mp noLetter char letter

/-- A displayed number does not start with a separator. -/
theorem head?_display_ne (number : Binary64) {close : Char} (closes : close ∈ separators)
    (rest : List Char) : (number.display.toList ++ rest).head? ≠ some close :=
  head?_word_append_ne (isWord_display number) closes fun empty =>
    absurd empty number.display_ne_nil

/-- A code from which everything can be found again belongs to one thing only. -/
theorem injective_of_found {α : Type} {code : α → String} {find : String → Option α}
    (found : ∀ item, find (code item) = some item) : Function.Injective code := by
  intro left right same
  have isLeft := found left
  rw [same, found] at isLeft
  exact (Option.some.inj isLeft).symm

/-- The names of the types are words. -/
theorem ValueType.isWord_name (type : ValueType) : isWord type.name = true := by
  cases type <;> decide

/-- The symbols of the unary operators are words. -/
theorem UnaryOp.isWord_symbol (op : UnaryOp) : isWord op.symbol = true := by
  cases op <;> decide

/-- The symbols of the binary operators are words. -/
theorem BinaryOp.isWord_symbol (op : BinaryOp) : isWord op.symbol = true := by
  cases op <;> decide

/-! ### Headings -/

/-- What a signature can start with. -/
inductive Heading where
  | constant
  | var
  | unary
  | binary
  | qualified (kind : Qualifier)
  | program
  deriving DecidableEq

namespace Heading

/-- The word that a signature starts with. -/
def word : Heading → String
  | constant => "Constant"
  | var => "Variable"
  | unary => "Unary"
  | binary => "Binary"
  | qualified kind => kind.name
  | program => "Shader"

/-- Every heading. -/
def all : List Heading :=
  [constant, var, unary, binary, program] ++ Qualifier.all.map qualified

theorem mem_all (heading : Heading) : heading ∈ all := by
  cases heading with
  | constant | var | unary | binary | program => decide
  | qualified kind => cases kind <;> decide

/-- A word belongs to one heading. -/
theorem word_injective : Function.Injective word := by
  intro left right same
  have distinct : (all.map word).Nodup := by decide
  exact List.inj_on_of_nodup_map distinct left.mem_all right.mem_all same

/-- A heading is a word. -/
theorem isWord_word (heading : Heading) : isWord heading.word = true := by
  have words : ∀ heading ∈ all, isWord heading.word = true := by decide
  exact words heading heading.mem_all

end Heading

/-! ### Signatures -/

namespace Tree

variable {tree left right inner : Tree} {undefined : Binary64}

/-- The structure of a tree, written out. -/
def signature : Tree → String
  | constant type components =>
    "Constant(" ++ type.name ++ ",[" ++ commaSeparated (components.map Binary64.display) ++ "])"
  | var type name => "Variable(" ++ type.name ++ "," ++ name ++ ")"
  | unary op operand => "Unary(" ++ op.symbol ++ "," ++ operand.signature ++ ")"
  | binary lhs op rhs =>
    "Binary(" ++ lhs.signature ++ "," ++ op.symbol ++ "," ++ rhs.signature ++ ")"
  | qualified kind inner => kind.name ++ "(" ++ inner.signature ++ ")"

/-- What the signature of a tree starts with. -/
def heading : Tree → Heading
  | constant .. => .constant
  | var .. => .var
  | unary .. => .unary
  | binary .. => .binary
  | qualified kind _ => .qualified kind

/-- What is between the parentheses of a signature, and the last of them. -/
def arguments : Tree → List Char
  | constant type components =>
    type.name.toList ++ ',' :: '[' ::
      ([','].intercalate (components.map fun number => number.display.toList) ++ [']', ')'])
  | var type name => type.name.toList ++ ',' :: (name.toList ++ [')'])
  | unary op operand => op.symbol.toList ++ ',' :: (operand.signature.toList ++ [')'])
  | binary lhs op rhs =>
    lhs.signature.toList ++ ',' :: (op.symbol.toList ++ ',' :: (rhs.signature.toList ++ [')']))
  | qualified _ inner => inner.signature.toList ++ [')']

/-- A signature is its heading and its arguments in parentheses. -/
theorem toList_signature (tree : Tree) :
    tree.signature.toList = tree.heading.word.toList ++ '(' :: tree.arguments := by
  cases tree with
  | constant type components =>
      simp [signature, heading, arguments, Heading.word, commaSeparated, Function.comp_def]
  | var _ _ | unary _ _ | binary _ _ _ | qualified _ _ =>
      simp [signature, heading, arguments, Heading.word]

/-- The names in the tree are words, and no undefined number but the given one is in it. -/
structure Spelled (undefined : Binary64) (tree : Tree) : Prop where
  names : ∀ type name, var type name ∈ tree.subtrees → isWord name = true
  numbers : ∀ type components, constant type components ∈ tree.subtrees →
    ∀ number ∈ components, number.isNaN = true → number = undefined

/-- The child of a spelled tree is spelled. -/
theorem Spelled.child {child : Tree} (spelled : tree.Spelled undefined)
    (member : child ∈ tree.children) : child.Spelled undefined where
  names type name inside := spelled.names type name (mem_subtrees_of_child member inside)
  numbers type components inside :=
    spelled.numbers type components (mem_subtrees_of_child member inside)

/-- Equal texts have the same heading. -/
theorem heading_append_inj
    (same : left.signature.toList ++ rest = right.signature.toList ++ others) :
    left.heading = right.heading ∧ left.arguments ++ rest = right.arguments ++ others := by
  rw [toList_signature, toList_signature, List.append_assoc, List.append_assoc] at same
  obtain ⟨sameWord, -, sameRest⟩ := word_append_inj left.heading.isWord_word
    right.heading.isWord_word (by decide) (by decide) same
  exact ⟨Heading.word_injective sameWord, sameRest⟩

/-- A displayed number is told from the others in a list. -/
theorem told_display {number other : Binary64} (isNumber : number.isNaN = true → number = undefined)
    (isOther : other.isNaN = true → other = undefined) :
    Told (fun number : Binary64 => number.display.toList) ']' number other := by
  intro _ _ goesOn otherGoesOn same
  obtain ⟨char, after, rfl, ends⟩ := goesOn.exists_separator (by decide)
  obtain ⟨next, later, rfl, otherEnds⟩ := otherGoesOn.exists_separator (by decide)
  obtain ⟨sameText, rfl, rfl⟩ := word_append_inj (isWord_display number) (isWord_display other)
    ends otherEnds same
  refine ⟨?_, rfl⟩
  rcases Binary64.display_inj sameText with equal | ⟨noNumber, noOther⟩
  · exact equal
  · rw [isNumber noNumber, isOther noOther]

/-- The arguments of a constant are read in one way, whatever comes after them. -/
theorem constant_append_inj {type other : ValueType} {components numbers : List Binary64}
    (spelled : (constant type components).Spelled undefined)
    (otherSpelled : (constant other numbers).Spelled undefined)
    (same : (constant type components).arguments ++ rest =
      (constant other numbers).arguments ++ others) :
    constant type components = constant other numbers ∧ rest = others := by
  simp only [arguments, List.append_assoc, List.cons_append, List.nil_append] at same
  obtain ⟨sameType, -, list⟩ := word_append_inj type.isWord_name other.isWord_name (by decide)
    (by decide) same
  obtain rfl := injective_of_found ValueType.ofName?_name sameType
  have told : ∀ number ∈ components, ∀ other ∈ numbers,
      Told (fun number : Binary64 => number.display.toList) ']' number other := by
    intro number isNumber other isOther
    exact told_display (spelled.numbers _ _ (self_mem_subtrees _) number isNumber)
      (otherSpelled.numbers _ _ (self_mem_subtrees _) other isOther)
  obtain ⟨rfl, close⟩ := intercalate_append_inj told (by decide)
    (fun number _ => head?_display_ne number (by decide)) (List.cons.inj list).2
  exact ⟨rfl, (List.cons.inj close).2⟩

/-- The arguments of a variable are read in one way, whatever comes after them. -/
theorem var_append_inj {type other : ValueType} {name otherName : String}
    (spelled : (var type name).Spelled undefined)
    (otherSpelled : (var other otherName).Spelled undefined)
    (same : (var type name).arguments ++ rest = (var other otherName).arguments ++ others) :
    var type name = var other otherName ∧ rest = others := by
  simp only [arguments, List.append_assoc, List.cons_append, List.nil_append] at same
  obtain ⟨sameType, -, named⟩ := word_append_inj type.isWord_name other.isWord_name (by decide)
    (by decide) same
  obtain rfl := injective_of_found ValueType.ofName?_name sameType
  obtain ⟨rfl, -, sameRest⟩ := word_append_inj (spelled.names _ _ (self_mem_subtrees _))
    (otherSpelled.names _ _ (self_mem_subtrees _)) (by decide) (by decide) named
  exact ⟨rfl, sameRest⟩

/-- A signature is read in one way, whatever comes after it. -/
theorem signature_append_inj (spelled : left.Spelled undefined)
    (otherSpelled : right.Spelled undefined)
    (same : left.signature.toList ++ rest = right.signature.toList ++ others) :
    left = right ∧ rest = others := by
  -- What comes after is generalized: an operand is followed by the rest of its parent.
  induction left generalizing right rest others with
  | constant type components =>
      obtain ⟨heading, sameArguments⟩ := heading_append_inj same
      cases right with
      | constant _ _ => exact constant_append_inj spelled otherSpelled sameArguments
      | var _ _ | unary _ _ | binary _ _ _ | qualified _ _ => cases heading
  | var type name =>
      obtain ⟨heading, sameArguments⟩ := heading_append_inj same
      cases right with
      | var _ _ => exact var_append_inj spelled otherSpelled sameArguments
      | constant _ _ | unary _ _ | binary _ _ _ | qualified _ _ => cases heading
  | unary op operand ih =>
      obtain ⟨heading, sameArguments⟩ := heading_append_inj same
      cases right with
      | unary other otherOperand =>
          simp only [arguments, List.append_assoc, List.cons_append, List.nil_append]
            at sameArguments
          obtain ⟨sameOp, -, operands⟩ := word_append_inj op.isWord_symbol other.isWord_symbol
            (by decide) (by decide) sameArguments
          obtain rfl := injective_of_found UnaryOp.ofSymbol?_symbol sameOp
          obtain ⟨rfl, close⟩ := ih (spelled.child List.mem_cons_self)
            (otherSpelled.child List.mem_cons_self) operands
          exact ⟨rfl, (List.cons.inj close).2⟩
      | constant _ _ | var _ _ | binary _ _ _ | qualified _ _ => cases heading
  | binary lhs op rhs ihLeft ihRight =>
      obtain ⟨heading, sameArguments⟩ := heading_append_inj same
      cases right with
      | binary otherLeft other otherRight =>
          simp only [arguments, List.append_assoc, List.cons_append, List.nil_append]
            at sameArguments
          obtain ⟨rfl, symbols⟩ := ihLeft (spelled.child List.mem_cons_self)
            (otherSpelled.child List.mem_cons_self) sameArguments
          obtain ⟨sameOp, -, operands⟩ := word_append_inj op.isWord_symbol other.isWord_symbol
            (by decide) (by decide) (List.cons.inj symbols).2
          obtain rfl := injective_of_found BinaryOp.ofSymbol?_symbol sameOp
          obtain ⟨rfl, close⟩ :=
            ihRight (spelled.child (List.mem_cons_of_mem _ List.mem_cons_self))
              (otherSpelled.child (List.mem_cons_of_mem _ List.mem_cons_self)) operands
          exact ⟨rfl, (List.cons.inj close).2⟩
      | constant _ _ | var _ _ | unary _ _ | qualified _ _ => cases heading
  | qualified kind inner ih =>
      obtain ⟨heading, sameArguments⟩ := heading_append_inj same
      cases right with
      | qualified other otherInner =>
          obtain rfl := Heading.qualified.inj heading
          simp only [arguments, List.append_assoc, List.cons_append, List.nil_append]
            at sameArguments
          obtain ⟨rfl, close⟩ := ih (spelled.child List.mem_cons_self)
            (otherSpelled.child List.mem_cons_self) sameArguments
          exact ⟨rfl, (List.cons.inj close).2⟩
      | constant _ _ | var _ _ | unary _ _ | binary _ _ _ => cases heading

end Tree

end Shading
