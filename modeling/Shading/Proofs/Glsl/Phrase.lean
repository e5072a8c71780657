import Mathlib.Data.List.Nodup
import Shading.Glsl.Expression
import Shading.Proofs.Binary64.Decimal
import Shading.Proofs.Text

/-!
# Phrases

The text of an expression is a phrase: a number, a name, a negation or an operation in parentheses,
or a call. What a phrase starts with tells numbers, words and parentheses apart, a word ends where
no letter or digit follows, and a negation of a number is told from an operation on a negative one
by what comes after the number. So a phrase can be read from the left in one way only, and the
reader knows where it ends (`Phrase.Proper.eq_of_chars`).
-/

namespace Shading.Glsl

/-! ### Characters -/

/-- The character can stand at the start of a name. -/
def isWordStart (char : Char) : Bool :=
  char.isAlpha || char == '_'

/-- The character can stand in a name. -/
def isWordChar (char : Char) : Bool :=
  char.isAlphanum || char == '_'

/-- The character can stand in a number. -/
def isNumeralChar (char : Char) : Bool :=
  char.isDigit || char == '.' || char == '-'

/-- The name is a letter or an underscore and then letters, digits and underscores. -/
def isIdentifier (name : String) : Bool :=
  name.toList.head?.any isWordStart && name.toList.all isWordChar

/-- The text is empty or starts with a character that stands after a phrase. -/
def Delimited (rest : List Char) : Prop :=
  ∀ char ∈ rest.head?, char = ' ' ∨ char = ',' ∨ char = ')'

theorem delimited_nil : Delimited [] :=
  nofun

/-- A blank, a comma and a closing parenthesis delimit a phrase. -/
theorem delimited_cons {char : Char} {rest : List Char}
    (ends : char = ' ' ∨ char = ',' ∨ char = ')') : Delimited (char :: rest) := by
  rintro _ ⟨⟩
  exact ends

/-- What delimits a phrase does not go on with a number. -/
theorem Delimited.isNumeralChar {rest : List Char} (delimited : Delimited rest) :
    ∀ char ∈ rest.head?, isNumeralChar char = false := by
  intro char isHead
  rcases delimited char isHead with rfl | rfl | rfl <;> decide

/-- What delimits a phrase does not go on with a name. -/
theorem Delimited.isWordChar {rest : List Char} (delimited : Delimited rest) :
    ∀ char ∈ rest.head?, isWordChar char = false := by
  intro char isHead
  rcases delimited char isHead with rfl | rfl | rfl <;> decide

/-! ### Phrases and their texts -/

/-- What can be called. -/
inductive Callee where
  | abs
  | length
  | mod
  | dot
  | cross
  | construct (type : ValueType)
  deriving DecidableEq

namespace Callee

/-- The word of what is called. -/
def word : Callee → String
  | abs => "abs"
  | length => "length"
  | mod => "mod"
  | dot => "dot"
  | cross => "cross"
  | construct type => type.name

/-- All that can be called. -/
def all : List Callee :=
  [abs, length, mod, dot, cross] ++ ValueType.all.map construct

theorem mem_all (callee : Callee) : callee ∈ all := by
  cases callee with
  | abs | length | mod | dot | cross => decide
  | construct type => cases type <;> decide

/-- A word belongs to one callee. -/
theorem word_injective : Function.Injective word := by
  intro left right same
  have distinct : (all.map word).Nodup := by decide
  exact List.inj_on_of_nodup_map distinct left.mem_all right.mem_all same

/-- What can be called is an identifier. -/
theorem isIdentifier_word (callee : Callee) : isIdentifier callee.word = true := by
  have identifiers : ∀ callee ∈ all, isIdentifier callee.word = true := by decide
  exact identifiers callee callee.mem_all

end Callee

/-- The shape of the text of an expression. -/
inductive Phrase where
  | number (value : Binary64)
  | name (word : String)
  | negation (operand : Phrase)
  | operation (left : Phrase) (symbol : Char) (right : Phrase)
  | call (callee : Callee) (first : Phrase) (rest : List Phrase)

/-- The texts after the first argument of a call, up to the end of the call. -/
def closing : List (List Char) → List Char
  | [] => [')']
  | text :: rest => ',' :: ' ' :: (text ++ closing rest)

/-- An operand of a negation, with a blank before another sign. -/
def apart (operand : List Char) : List Char :=
  if operand.head? = some '-' then ' ' :: operand else operand

namespace Phrase

mutual

/-- The text of a phrase. -/
def chars : Phrase → List Char
  | number value => value.literalChars
  | name word => word.toList
  | negation operand => '(' :: '-' :: (apart operand.chars ++ [')'])
  | operation left symbol right =>
    '(' :: (left.chars ++ ' ' :: symbol :: ' ' :: (right.chars ++ [')']))
  | call callee first rest => callee.word.toList ++ '(' :: (first.chars ++ closing (texts rest))

/-- The texts of phrases. -/
def texts : List Phrase → List (List Char)
  | [] => []
  | phrase :: rest => phrase.chars :: texts rest

end

/-- The texts of phrases, one by one. -/
theorem texts_eq_map (phrases : List Phrase) : texts phrases = phrases.map chars := by
  induction phrases with
  | nil => simp only [texts, List.map_nil]
  | cons phrase rest ih => rw [texts, ih, List.map_cons]

/-- The names in the phrase are identifiers. -/
inductive Proper : Phrase → Prop where
  | number (value : Binary64) : Proper (number value)
  | name {word : String} (identifier : isIdentifier word = true) : Proper (name word)
  | negation {operand : Phrase} (inside : Proper operand) : Proper (negation operand)
  | operation {left right : Phrase} (symbol : Char) (before : Proper left) (after : Proper right) :
      Proper (operation left symbol right)
  | call (callee : Callee) {first : Phrase} {rest : List Phrase} (leading : Proper first)
      (others : ∀ phrase ∈ rest, Proper phrase) : Proper (call callee first rest)

/-! ### How a phrase starts -/

/-- What a phrase can start with. -/
inductive Opening where
  | numeral
  | word
  | parenthesis

/-- What starts with the character. -/
def Opening.of? (char : Char) : Option Opening :=
  if char = '(' then some parenthesis
  else if isWordStart char then some word
  else if isNumeralChar char then some numeral
  else none

/-- What the text of a phrase starts with. -/
def opening : Phrase → Opening
  | number _ => .numeral
  | name _ | call .. => .word
  | negation _ | operation .. => .parenthesis

variable {phrase operand left right : Phrase} {rest others : List Char}

/-- Only a number starts with a numeral. -/
theorem exists_number (numeral : phrase.opening = .numeral) : ∃ value, phrase = number value := by
  cases phrase with
  | number value => exact ⟨value, rfl⟩
  | name _ | negation _ | operation _ _ _ | call _ _ _ => cases numeral

/-- Only a name or a call starts with a word. -/
theorem exists_name_or_call (word : phrase.opening = .word) :
    (∃ name, phrase = .name name) ∨
      ∃ callee first rest, phrase = .call callee first rest := by
  cases phrase with
  | name name => exact Or.inl ⟨name, rfl⟩
  | call callee first rest => exact Or.inr ⟨callee, first, rest, rfl⟩
  | number _ | negation _ | operation _ _ _ => cases word

/-- Only a negation or an operation starts with a parenthesis. -/
theorem exists_negation_or_operation (parenthesis : phrase.opening = .parenthesis) :
    (∃ operand, phrase = .negation operand) ∨
      ∃ left symbol right, phrase = .operation left symbol right := by
  cases phrase with
  | negation operand => exact Or.inl ⟨operand, rfl⟩
  | operation left symbol right => exact Or.inr ⟨left, symbol, right, rfl⟩
  | number _ | name _ | call _ _ _ => cases parenthesis

/-- A digit does not start a name. -/
theorem isWordStart_of_isDigit {char : Char} (digit : char.isDigit = true) :
    isWordStart char = false := by
  by_contra start
  unfold isWordStart Char.isAlpha Char.isUpper Char.isLower at start
  simp only [Bool.not_eq_false, Bool.or_eq_true, Bool.and_eq_true, decide_eq_true_eq, beq_iff_eq,
    ge_iff_le, UInt32.le_iff_toNat_le] at start
  simp only [Char.isDigit, Bool.and_eq_true, decide_eq_true_eq, ge_iff_le,
    UInt32.le_iff_toNat_le] at digit
  have nine : '9'.val.toNat = 57 := rfl
  have upper : 'A'.val.toNat = 65 := rfl
  have lower : 'a'.val.toNat = 97 := rfl
  rcases start with letter | rfl
  · omega
  · have underscore : '_'.val.toNat = 95 := rfl
    omega

/-- A digit starts a numeral. -/
theorem Opening.of?_of_isDigit {char : Char} (digit : char.isDigit = true) :
    of? char = some numeral := by
  have notParenthesis : char ≠ '(' := by
    rintro rfl
    cases digit
  simp [of?, notParenthesis, isWordStart_of_isDigit digit, isNumeralChar, digit]

/-- A letter or an underscore starts a word. -/
theorem Opening.of?_of_isWordStart {char : Char} (start : isWordStart char = true) :
    of? char = some word := by
  have notParenthesis : char ≠ '(' := by
    rintro rfl
    cases start
  simp [of?, notParenthesis, start]

/-- The first character of an identifier starts a word. -/
theorem opening_identifier {word : String} (identifier : isIdentifier word = true)
    (rest : List Char) : (word.toList ++ rest).head?.bind Opening.of? = some .word := by
  obtain ⟨start, -⟩ := Bool.and_eq_true_iff.mp identifier
  cases spelled : word.toList with
  | nil =>
      rw [spelled] at start
      cases start
  | cons first others =>
      rw [spelled] at start
      exact Opening.of?_of_isWordStart start

/-- A literal starts as a numeral does. -/
theorem opening_literalChars (value : Binary64) (rest : List Char) :
    (value.literalChars ++ rest).head?.bind Opening.of? = some .numeral := by
  obtain ⟨first, isFirst, digit⟩ :=
    Binary64.exists_head_decimalText (Binary64.shownCount value.magnitude)
  rw [Binary64.literalChars, Binary64.signDigits]
  cases value.isNegative with
  | true => rfl
  | false =>
      rw [if_neg Bool.false_ne_true, List.nil_append, List.head?_append, isFirst]
      exact Opening.of?_of_isDigit digit

/-- The first character tells what a phrase starts with. -/
theorem Proper.opening_append (proper : phrase.Proper) (rest : List Char) :
    (phrase.chars ++ rest).head?.bind Opening.of? = some phrase.opening := by
  cases proper with
  | number value => exact opening_literalChars value rest
  | name identifier => exact opening_identifier identifier rest
  | negation _ => rfl
  | operation _ _ _ => rfl
  | call callee _ _ =>
      rw [chars, List.append_assoc]
      exact opening_identifier callee.isIdentifier_word _

/-- Texts that are equal start with the same. -/
theorem Proper.opening_eq (leftProper : left.Proper) (rightProper : right.Proper)
    (same : left.chars ++ rest = right.chars ++ others) : left.opening = right.opening := by
  have leftOpening := leftProper.opening_append rest
  rw [same, rightProper.opening_append others, Option.some.injEq] at leftOpening
  exact leftOpening.symm

/-! ### Numbers and words -/

/-- The characters of a literal are those of numbers. -/
theorem isNumeralChar_of_mem {value : Binary64} {char : Char} (member : char ∈ value.literalChars) :
    isNumeralChar char = true := by
  rw [Binary64.literalChars, Binary64.signDigits, List.mem_append] at member
  rcases member with sign | decimal
  · split at sign
    · rw [List.mem_singleton.mp sign]
      rfl
    · cases sign
  · rcases Binary64.isDigit_or_point_of_mem_decimalText decimal with digit | rfl
    · simp [isNumeralChar, digit]
    · rfl

/-- A literal ends before the first character that is not of a number. -/
theorem literalChars_append_inj {value other : Binary64}
    (afterLeft : ∀ char ∈ rest.head?, isNumeralChar char = false)
    (afterRight : ∀ char ∈ others.head?, isNumeralChar char = false)
    (same : value.literalChars ++ rest = other.literalChars ++ others) :
    value = other ∧ rest = others := by
  obtain ⟨sameChars, sameRest⟩ := append_inj_of_class (fun _ => isNumeralChar_of_mem)
    (fun _ => isNumeralChar_of_mem) afterLeft afterRight same
  exact ⟨Binary64.literalChars_injective sameChars, sameRest⟩

/-- An identifier ends before the first character that is not of a name. -/
theorem word_append_inj {word other : String} (identifier : isIdentifier word = true)
    (otherIdentifier : isIdentifier other = true)
    (afterLeft : ∀ char ∈ rest.head?, isWordChar char = false)
    (afterRight : ∀ char ∈ others.head?, isWordChar char = false)
    (same : word.toList ++ rest = other.toList ++ others) : word = other ∧ rest = others := by
  obtain ⟨-, inWord⟩ := Bool.and_eq_true_iff.mp identifier
  obtain ⟨-, inOther⟩ := Bool.and_eq_true_iff.mp otherIdentifier
  obtain ⟨sameChars, sameRest⟩ := append_inj_of_class (List.all_eq_true.mp inWord)
    (List.all_eq_true.mp inOther) afterLeft afterRight same
  exact ⟨String.toList_inj.mp sameChars, sameRest⟩

/-- A name is not the word of a call, since a parenthesis does not stand after a name. -/
theorem name_ne_call {word : String} (identifier : isIdentifier word = true)
    (ends : Delimited rest) {callee : Callee} {first : Phrase} {arguments : List Phrase} :
    (name word).chars ++ rest ≠ (call callee first arguments).chars ++ others := by
  intro same
  rw [chars, chars, List.append_assoc] at same
  obtain ⟨-, rfl⟩ := word_append_inj identifier callee.isIdentifier_word ends.isWordChar
    (outside_cons rfl) same
  rcases ends '(' rfl with blank | comma | parenthesis
  · cases blank
  · cases comma
  · cases parenthesis

/-! ### Signs -/

/-- No phrase starts with a blank, so that it is seen whether a blank was put before a sign. -/
theorem Proper.apart_append_inj (leftProper : left.Proper) (rightProper : right.Proper)
    (same : apart left.chars ++ rest = apart right.chars ++ others) :
    left.chars ++ rest = right.chars ++ others := by
  have leftOpening := leftProper.opening_append rest
  have rightOpening := rightProper.opening_append others
  unfold apart at same
  split at same
  · split at same
    · exact (List.cons.inj same).2
    · rw [← same] at rightOpening
      cases rightOpening
  · split at same
    · rw [same] at leftOpening
      cases leftOpening
    · exact same

/-- Only a negative number starts with a sign, and a digit is after it. -/
theorem exists_digit_of_sign {value : Binary64} {text : List Char}
    (same : '-' :: text = value.literalChars ++ rest) :
    ∃ digits, text = digits ++ rest ∧ (∀ char ∈ digits, isNumeralChar char = true) ∧
      (text.head?.any Char.isDigit) = true := by
  have inside : ∀ char ∈ value.literalChars, isNumeralChar char = true :=
    fun _ => isNumeralChar_of_mem
  obtain ⟨first, isFirst, digit⟩ :=
    Binary64.exists_head_decimalText (Binary64.shownCount value.magnitude)
  rw [Binary64.literalChars, Binary64.signDigits] at same inside
  cases sign : value.isNegative with
  | true =>
      simp only [sign, ↓reduceIte, List.cons_append, List.nil_append, List.cons.injEq,
        true_and] at same inside
      refine ⟨_, same, fun char member => inside char (List.mem_cons_of_mem _ member), ?_⟩
      rw [same, List.head?_append, isFirst]
      exact digit
  | false =>
      rw [sign, if_neg Bool.false_ne_true, List.nil_append] at same
      have head := congrArg List.head? same
      rw [List.head?_append, isFirst] at head
      cases head
      cases digit

/-- After a sign in front of digits a negation ends and an operation goes on. -/
theorem negation_ne_operation (inside : operand.Proper) (before : left.Proper) {symbol : Char} :
    (negation operand).chars ++ rest ≠ (operation left symbol right).chars ++ others := by
  intro same
  simp only [chars, List.cons_append, List.append_assoc, List.cons.injEq, true_and,
    List.nil_append] at same
  -- The operation starts with a number, since only a number starts with a sign.
  have isNumeral := before.opening_append (' ' :: symbol :: ' ' :: (right.chars ++ ')' :: others))
  rw [← same] at isNumeral
  obtain ⟨value, rfl⟩ := exists_number (Option.some.inj isNumeral).symm
  rw [chars] at same
  obtain ⟨digits, sameText, areDigits, digit⟩ := exists_digit_of_sign same
  unfold apart at sameText digit
  split at digit
  · cases digit
  next noSign =>
    rw [if_neg noSign] at sameText
    -- So the operand of the negation starts with a digit and is a number, too.
    have operandOpening := inside.opening_append (')' :: rest)
    cases shown : operand.chars ++ ')' :: rest with
    | nil =>
        rw [shown] at digit
        cases digit
    | cons first text =>
        rw [shown] at digit operandOpening
        have numeral := Opening.of?_of_isDigit digit
        obtain ⟨number, rfl⟩ := exists_number (Option.some.inj (operandOpening.symm.trans numeral))
        rw [chars] at sameText
        obtain ⟨-, rests⟩ := append_inj_of_class (fun _ => isNumeralChar_of_mem) areDigits
          (outside_cons rfl) (outside_cons rfl) sameText
        cases rests

/-! ### Reading -/

/-- No other phrase has a text that goes on in the same way. -/
def Readable (phrase : Phrase) : Prop :=
  ∀ ⦃other : Phrase⦄ ⦃rest others : List Char⦄, other.Proper → Delimited rest → Delimited others →
    phrase.chars ++ rest = other.chars ++ others → phrase = other ∧ rest = others

/-- A number is read in one way. -/
theorem readable_number (value : Binary64) : (number value).Readable := by
  intro other rest others proper ends otherEnds same
  obtain ⟨number, rfl⟩ := exists_number (Proper.opening_eq (.number value) proper same).symm
  rw [chars, chars] at same
  obtain ⟨rfl, sameRest⟩ := literalChars_append_inj ends.isNumeralChar otherEnds.isNumeralChar same
  exact ⟨rfl, sameRest⟩

/-- A name that is an identifier is read in one way. -/
theorem readable_name {word : String} (identifier : isIdentifier word = true) :
    (name word).Readable := by
  intro other rest others proper ends otherEnds same
  have opening := (Proper.opening_eq (.name identifier) proper same).symm
  rcases exists_name_or_call opening with ⟨otherWord, rfl⟩ | ⟨callee, first, arguments, rfl⟩
  · cases proper with
    | name otherIdentifier =>
        rw [chars, chars] at same
        obtain ⟨rfl, sameRest⟩ := word_append_inj identifier otherIdentifier ends.isWordChar
          otherEnds.isWordChar same
        exact ⟨rfl, sameRest⟩
  · exact absurd same (name_ne_call identifier ends)

/-- A negation is read in one way if its operand is. -/
theorem readable_negation (inside : operand.Proper) (readable : operand.Readable) :
    (negation operand).Readable := by
  intro other rest others proper ends otherEnds same
  have opening := (Proper.opening_eq (.negation inside) proper same).symm
  rcases exists_negation_or_operation opening with
    ⟨otherOperand, rfl⟩ | ⟨before, symbol, after, rfl⟩
  · cases proper with
    | negation otherInside =>
        simp only [chars, List.cons_append, List.append_assoc, List.cons.injEq, true_and,
          List.nil_append] at same
        obtain ⟨rfl, sameRest⟩ := readable otherInside (delimited_cons (by simp))
          (delimited_cons (by simp)) (inside.apart_append_inj otherInside same)
        exact ⟨rfl, (List.cons.inj sameRest).2⟩
  · cases proper with
    | operation symbol isBefore isAfter =>
        exact absurd same (negation_ne_operation inside isBefore)

/-- An operation is read in one way if its operands are. -/
theorem readable_operation (before : left.Proper) (leftReadable : left.Readable) (symbol : Char)
    (after : right.Proper) (rightReadable : right.Readable) :
    (operation left symbol right).Readable := by
  intro other rest others proper ends otherEnds same
  have opening := (Proper.opening_eq (.operation symbol before after) proper same).symm
  rcases exists_negation_or_operation opening with ⟨operand, rfl⟩ | ⟨lhs, otherSymbol, rhs, rfl⟩
  · cases proper with
    | negation inside => exact absurd same.symm (negation_ne_operation inside before)
  · cases proper with
    | operation _ isBefore isAfter =>
        simp only [chars, List.cons_append, List.append_assoc, List.cons.injEq, true_and,
          List.nil_append] at same
        obtain ⟨rfl, tail⟩ := leftReadable isBefore (delimited_cons (by simp))
          (delimited_cons (by simp)) same
        simp only [List.cons.injEq, true_and] at tail
        obtain ⟨rfl, tail⟩ := tail
        obtain ⟨rfl, sameRest⟩ := rightReadable isAfter (delimited_cons (by simp))
          (delimited_cons (by simp)) tail
        exact ⟨rfl, (List.cons.inj sameRest).2⟩

/-- The end of a call delimits its first argument. -/
theorem delimited_closing (texts : List (List Char)) (rest : List Char) :
    Delimited (closing texts ++ rest) := by
  cases texts with
  | nil => exact delimited_cons (by simp)
  | cons text more => exact delimited_cons (by simp)

/-- Arguments are read one after the other, up to the end of the call. -/
theorem closing_append_inj {phrases proper : List Phrase}
    (readable : ∀ phrase ∈ phrases, phrase.Readable) (areProper : ∀ phrase ∈ proper, phrase.Proper)
    (same : closing (texts phrases) ++ rest = closing (texts proper) ++ others) :
    phrases = proper ∧ rest = others := by
  induction phrases generalizing proper with
  | nil =>
      cases proper with
      | nil => exact ⟨rfl, (List.cons.inj same).2⟩
      | cons phrase more => cases same
  | cons phrase phrases ih =>
      cases proper with
      | nil => cases same
      | cons other proper =>
          simp only [texts, closing, List.cons_append, List.append_assoc, List.cons.injEq,
            true_and] at same
          obtain ⟨rfl, tail⟩ := readable phrase List.mem_cons_self
            (areProper other List.mem_cons_self) (delimited_closing _ _) (delimited_closing _ _)
            same
          obtain ⟨rfl, sameRest⟩ := ih
            (fun phrase member => readable phrase (List.mem_cons_of_mem _ member))
            (fun phrase member => areProper phrase (List.mem_cons_of_mem _ member)) tail
          exact ⟨rfl, sameRest⟩

/-- A call is read in one way if its arguments are. -/
theorem readable_call (callee : Callee) {first : Phrase} {arguments : List Phrase}
    (proper : (call callee first arguments).Proper) (readable : first.Readable)
    (areReadable : ∀ phrase ∈ arguments, phrase.Readable) :
    (call callee first arguments).Readable := by
  intro other rest others otherProper ends otherEnds same
  have opening := (Proper.opening_eq proper otherProper same).symm
  rcases exists_name_or_call opening with ⟨word, rfl⟩ | ⟨otherCallee, otherFirst, more, rfl⟩
  · cases otherProper with
    | name identifier => exact absurd same.symm (name_ne_call identifier otherEnds)
  · cases otherProper with
    | call _ isFirst areProper =>
        simp only [chars, List.append_assoc, List.cons_append] at same
        obtain ⟨sameWord, tail⟩ := word_append_inj callee.isIdentifier_word
          otherCallee.isIdentifier_word (outside_cons rfl) (outside_cons rfl) same
        obtain rfl := Callee.word_injective sameWord
        obtain ⟨rfl, further⟩ := readable isFirst (delimited_closing _ _) (delimited_closing _ _)
          (List.cons.inj tail).2
        obtain ⟨rfl, sameRest⟩ := closing_append_inj areReadable areProper further
        exact ⟨rfl, sameRest⟩

/-- A phrase with proper names is read in one way. -/
theorem Proper.readable (proper : phrase.Proper) : phrase.Readable := by
  induction proper with
  | number value => exact readable_number value
  | name identifier => exact readable_name identifier
  | negation inside ih => exact readable_negation inside ih
  | operation symbol before after ihBefore ihAfter =>
      exact readable_operation before ihBefore symbol after ihAfter
  | call callee leading others ihLeading ihOthers =>
      exact readable_call callee (.call callee leading others) ihLeading ihOthers

/-- A text belongs to one phrase. -/
theorem Proper.eq_of_chars (leftProper : left.Proper) (rightProper : right.Proper)
    (same : left.chars = right.chars) : left = right := by
  have appended : left.chars ++ [] = right.chars ++ [] := by rw [same]
  exact (leftProper.readable rightProper delimited_nil delimited_nil appended).1

end Phrase

end Shading.Glsl
