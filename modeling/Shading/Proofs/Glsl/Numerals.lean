import Shading.Proofs.Binary64.Rounding
import Shading.Proofs.Glsl.Unambiguous
import Shading.Proofs.Text

/-!
# Literals as numerals

A numeral is what a reader of source text sees of a number: a sign or none, digits, a point and
digits, and never an exponent. It stands for a rational, and its text for the number that this
rational is correctly rounded to (`Glsl.Denotes`). The literal of a finite number is such a text and
stands for that number only; a number that is not finite has no literal.
-/

namespace Shading.Glsl

open Binary64

/-- A decimal as it is written, with digits on each side of the point. -/
@[ext]
structure Numeral where
  /-- Whether a minus sign stands before the digits. -/
  negative : Bool
  /-- The digits before the point. -/
  whole : List Char
  /-- The digits after the point. -/
  fraction : List Char
  whole_ne_nil : whole ≠ []
  fraction_ne_nil : fraction ≠ []
  whole_digits : ∀ char ∈ whole, char.isDigit = true
  fraction_digits : ∀ char ∈ fraction, char.isDigit = true

namespace Numeral

/-- The minus sign or nothing. -/
def sign (numeral : Numeral) : List Char :=
  if numeral.negative then ['-'] else []

/-- The text of a numeral. -/
def text (numeral : Numeral) : String :=
  .ofList (numeral.sign ++ (numeral.whole ++ '.' :: numeral.fraction))

/-- The rational that the digits spell. -/
def amount (numeral : Numeral) : ℚ :=
  Nat.ofDigitChars 10 numeral.whole 0 +
    Nat.ofDigitChars 10 numeral.fraction 0 / 10 ^ numeral.fraction.length

/-! ### Reading a numeral -/

/-- After the sign comes no other sign. -/
theorem head_ne_minus (numeral : Numeral) (rest : List Char) :
    ∀ char ∈ (numeral.whole ++ rest).head?, (char == '-') = false := by
  obtain ⟨first, others, isWhole⟩ := List.exists_cons_of_ne_nil numeral.whole_ne_nil
  have digit := numeral.whole_digits first (isWhole ▸ List.mem_cons_self)
  rw [isWhole]
  rintro _ ⟨⟩
  rw [beq_eq_false_iff_ne]
  rintro rfl
  cases digit

/-- A numeral is negative if it has a sign. -/
theorem negative_eq (numeral : Numeral) : numeral.negative = !numeral.sign.isEmpty := by
  unfold sign
  cases numeral.negative <;> rfl

/-- Only a minus sign can be in the sign. -/
theorem mem_sign {numeral : Numeral} {char : Char} (member : char ∈ numeral.sign) :
    (char == '-') = true := by
  unfold sign at member
  split at member
  · rw [List.mem_singleton.mp member]
    rfl
  · cases member

/-- A text is the text of one numeral. -/
theorem text_injective : Function.Injective text := by
  intro left right same
  have chars := congrArg String.toList same
  rw [text, text, String.toList_ofList, String.toList_ofList] at chars
  -- The sign ends before the first digit, and the digits end before the point.
  obtain ⟨signs, digits⟩ := append_inj_of_class (fun _ => mem_sign) (fun _ => mem_sign)
    (left.head_ne_minus _) (right.head_ne_minus _) chars
  obtain ⟨wholes, fractions⟩ := append_inj_of_class left.whole_digits right.whole_digits
    (outside_cons rfl) (outside_cons rfl) digits
  have negatives : left.negative = right.negative := by
    rw [negative_eq, negative_eq, signs]
  exact Numeral.ext negatives wholes (List.cons.inj fractions).2

/-! ### The numeral of a count -/

/-- The numeral of a count of `10⁻¹⁰⁷⁴`. -/
def ofCount (negative : Bool) (count : Nat) : Numeral where
  negative := negative
  whole := wholeDigits count
  fraction := if (fractionDigits count).isEmpty then ['0'] else fractionDigits count
  whole_ne_nil := Nat.toDigits_ne_nil
  fraction_ne_nil := by
    split
    · exact List.cons_ne_nil _ _
    · next digits => exact fun none => digits (List.isEmpty_iff.mpr none)
  whole_digits := fun _ => isDigit_of_mem_wholeDigits
  fraction_digits := by
    split
    · exact List.forall_mem_singleton.mpr rfl
    · exact fun _ => isDigit_of_mem_fractionDigits

/-- The numeral of a count is written as the decimal text of the count. -/
theorem toList_text_ofCount (negative : Bool) (count : Nat) :
    (ofCount negative count).text.toList = (ofCount negative count).sign ++ decimalText count := by
  rw [text, String.toList_ofList]
  rfl

/-- The digits after the point spell the part of a count below one. -/
theorem amount_fraction (negative : Bool) (count : Nat) :
    (Nat.ofDigitChars 10 (ofCount negative count).fraction 0 : ℚ) /
        10 ^ (ofCount negative count).fraction.length =
      (count % Nat.pow 10 places : Nat) / 10 ^ places := by
  unfold ofCount
  dsimp only
  by_cases none : (fractionDigits count).isEmpty = true
  · have whole := fractionDigits_eq_nil_iff.mp (List.isEmpty_iff.mp none)
    rw [if_pos none, whole]
    simp [Nat.ofDigitChars_cons]
  · have padded : (10 : ℚ) ^ places = 10 ^ (fractionDigits count).length *
        10 ^ (places - (fractionDigits count).length) := by
      rw [← pow_add, Nat.add_sub_cancel' (length_fractionDigits_le count)]
    have positive : (10 : ℚ) ^ (places - (fractionDigits count).length) ≠ 0 :=
      pow_ne_zero _ (by norm_num)
    rw [if_neg none, ← ofDigitChars_fractionDigits, Nat.cast_mul, cast_power, padded]
    exact (mul_div_mul_right _ _ positive).symm

/-- The numeral of a count spells the number that the count stands for. -/
theorem amount_ofCount (negative : Bool) (count : Nat) :
    (ofCount negative count).amount = countValue count := by
  have whole : Nat.ofDigitChars 10 (ofCount negative count).whole 0 =
      count / Nat.pow 10 places := Nat.ofDigitChars_ten_toDigits
  have positive : (10 : ℚ) ^ places ≠ 0 := pow_ne_zero _ (by norm_num)
  have parts := congrArg (Nat.cast : Nat → ℚ) (Nat.div_add_mod' count (Nat.pow 10 places))
  rw [Nat.cast_add, Nat.cast_mul, cast_power] at parts
  rw [amount, whole, amount_fraction, countValue, eq_div_iff positive, add_mul,
    div_mul_cancel₀ _ positive]
  exact parts

end Numeral

/-- A text stands for the number that the numeral with this text is correctly rounded to. -/
def Denotes (text : String) (number : Binary64) : Prop :=
  ∃ numeral : Numeral, numeral.text = text ∧ RoundsTo numeral.negative numeral.amount number

/-- The numeral of the count that the literal of a number shows. -/
def shownNumeral (number : Binary64) : Numeral :=
  .ofCount number.isNegative (shownCount number.magnitude)

variable {number : Binary64}

/-- The literal of a finite number is the numeral that shows it. -/
theorem literal_eq_shownNumeral (finite : number.isFinite = true) :
    literal number = .ok (shownNumeral number).text :=
  Phrase.literal_eq_ok_iff.mpr ⟨finite, Numeral.toList_text_ofCount _ _⟩

/-- The numeral that shows a finite number denotes it and no other number. -/
theorem denotes_shownNumeral_iff (finite : number.isFinite = true) (other : Binary64) :
    Denotes (shownNumeral number).text other ↔ other = number := by
  have rounded :
      RoundsTo (shownNumeral number).negative (shownNumeral number).amount number := by
    rw [shownNumeral, Numeral.amount_ofCount]
    exact roundsTo_of_readsAs finite (readsAs_shownCount _)
  constructor
  · rintro ⟨numeral, sameText, otherRounded⟩
    rw [Numeral.text_injective sameText] at otherRounded
    exact otherRounded.unique rounded
  · rintro rfl
    exact ⟨_, rfl, rounded⟩

/-- The literal of a finite number is a numeral and stands for that number and for no other one. A
number that is not finite has no literal. -/
theorem literal_reads_back (number : Binary64) :
    (number.isFinite = true → ∃ numeral : Numeral, literal number = .ok numeral.text ∧
      ∀ other, Denotes numeral.text other ↔ other = number) ∧
    (number.isFinite = false → literal number = .error (.nonFiniteLiteral number)) := by
  constructor
  · intro finite
    exact ⟨shownNumeral number, literal_eq_shownNumeral finite, denotes_shownNumeral_iff finite⟩
  · intro infinite
    rw [literal, literal?, infinite]
    rfl

/-- A tenth is not a number of the format, and its literal stands for the nearest number. -/
theorem literal_reads_back_tenth :
    literal ⟨0x3FB999999999999A⟩ = .ok "0.1" ∧
      (∀ other, Denotes "0.1" other ↔ other = ⟨0x3FB999999999999A⟩) ∧
      literal ⟨0x7FF0000000000000⟩ = .error (.nonFiniteLiteral ⟨0x7FF0000000000000⟩) := by
  have shown : literal ⟨0x3FB999999999999A⟩ = .ok "0.1" := by decide +kernel
  obtain ⟨numeral, isLiteral, denotes⟩ := (literal_reads_back ⟨0x3FB999999999999A⟩).1 (by decide)
  have sameText : numeral.text = "0.1" := Except.ok.inj (isLiteral.symm.trans shown)
  rw [sameText] at denotes
  exact ⟨shown, denotes, (literal_reads_back ⟨0x7FF0000000000000⟩).2 (by decide)⟩

end Shading.Glsl
