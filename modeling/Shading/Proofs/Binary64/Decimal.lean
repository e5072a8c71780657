import Mathlib.Data.List.TakeWhile
import Mathlib.Order.Monotone.Basic
import Shading.Binary64.Decimal

/-!
# Decimals that read back

A magnitude is followed by a larger number, so exact counts are ordered as magnitudes are
(`Binary64.exactCount_strictMono`) and a count reads back as one magnitude at most
(`Binary64.eq_of_readsAs`). The count that a literal shows reads back as the number it was made
from, and the text of a count can be read digit by digit (`Binary64.countOf_decimalText`). So
the text of a literal belongs to one number only (`Binary64.literalChars_injective`), and so does
the text that displays a number, unless it is the one of all undefined numbers
(`Binary64.display_inj`).
-/

namespace Shading.Binary64

variable {magnitude other count : Nat}

/-! ### Magnitudes in order -/

theorem power_pos {base : Nat} (positive : 0 < base) (exponent : Nat) :
    0 < Nat.pow base exponent :=
  Nat.pow_pos positive

theorem exponentPlace_pos : 0 < exponentPlace := by
  decide

/-- The number of given exponent and fraction. -/
theorem units_eq {exponent fraction : Nat} (inside : fraction < exponentPlace) :
    units (exponent * exponentPlace + fraction) =
      if exponent = 0 then fraction
      else (exponentPlace + fraction) * Nat.pow 2 (exponent - 1) := by
  have quotient : (exponent * exponentPlace + fraction) / exponentPlace = exponent := by
    rw [Nat.add_comm, Nat.add_mul_div_right _ _ exponentPlace_pos, Nat.div_eq_of_lt inside,
      Nat.zero_add]
  have remainder : (exponent * exponentPlace + fraction) % exponentPlace = fraction := by
    rw [Nat.mul_add_mod_self_right, Nat.mod_eq_of_lt inside]
  simp only [units, quotient, remainder]

/-- The next magnitude is a larger number, also where the exponent changes. -/
theorem units_lt_succ (magnitude : Nat) : units magnitude < units (magnitude + 1) := by
  obtain ⟨exponent, fraction, inside, rfl⟩ : ∃ exponent fraction,
      fraction < exponentPlace ∧ magnitude = exponent * exponentPlace + fraction :=
    ⟨magnitude / exponentPlace, magnitude % exponentPlace, Nat.mod_lt _ exponentPlace_pos,
      (Nat.div_add_mod' _ _).symm⟩
  rw [units_eq inside]
  by_cases last : fraction + 1 = exponentPlace
  · have carried : exponent * exponentPlace + fraction + 1 =
        (exponent + 1) * exponentPlace + 0 := by
      rw [Nat.add_assoc, last, Nat.succ_mul, Nat.add_zero]
    rw [carried, units_eq exponentPlace_pos, if_neg (Nat.succ_ne_zero _)]
    by_cases subnormal : exponent = 0
    · subst subnormal
      simpa using inside
    · obtain ⟨previous, rfl⟩ := Nat.exists_eq_add_one_of_ne_zero subnormal
      rw [if_neg subnormal, Nat.add_zero, Nat.add_sub_cancel, Nat.add_sub_cancel]
      have doubled : Nat.pow 2 (previous + 1) = 2 * Nat.pow 2 previous := by
        rw [Nat.mul_comm]
        rfl
      rw [doubled, ← Nat.mul_assoc]
      apply Nat.mul_lt_mul_of_pos_right _ (Nat.two_pow_pos previous)
      omega
  · have next : fraction + 1 < exponentPlace := by omega
    rw [Nat.add_assoc, units_eq next]
    by_cases subnormal : exponent = 0
    · simp [subnormal]
    · rw [if_neg subnormal, if_neg subnormal]
      apply Nat.mul_lt_mul_of_pos_right _ (Nat.two_pow_pos _)
      omega

/-- A larger magnitude has a larger count. -/
theorem exactCount_strictMono : StrictMono exactCount := by
  apply strictMono_nat_of_lt_succ
  intro magnitude
  exact Nat.mul_lt_mul_of_pos_right (units_lt_succ magnitude) (power_pos (by decide) places)

/-! ### Counts that read back -/

/-- A count is read as a magnitude if it lies between the midpoints to its neighbours, and not on
one of them when the magnitude is odd. -/
theorem readsAs_iff : readsAs magnitude count = true ↔
    (exactCount (magnitude - 1) + exactCount magnitude ≤ 2 * count ∧
      2 * count ≤ exactCount magnitude + exactCount (magnitude + 1)) ∧
      (magnitude % 2 = 1 →
        exactCount (magnitude - 1) + exactCount magnitude < 2 * count ∧
          2 * count < exactCount magnitude + exactCount (magnitude + 1)) := by
  unfold readsAs
  by_cases even : magnitude % 2 = 0
  · simp [even]
  · have odd : magnitude % 2 = 1 := by omega
    simp only [odd, Nat.one_ne_zero, ↓reduceIte, Bool.and_eq_true, decide_eq_true_eq,
      forall_const]
    omega

/-- A count is not read as two magnitudes. -/
theorem not_readsAs_of_lt (smaller : magnitude < other) (first : readsAs magnitude count = true) :
    ¬readsAs other count = true := by
  intro second
  obtain ⟨⟨-, above⟩, oddAbove⟩ := readsAs_iff.mp first
  obtain ⟨⟨below, -⟩, oddBelow⟩ := readsAs_iff.mp second
  have lower : exactCount magnitude ≤ exactCount (other - 1) :=
    exactCount_strictMono.monotone (by omega)
  have upper : exactCount (magnitude + 1) ≤ exactCount other :=
    exactCount_strictMono.monotone smaller
  -- The intervals can only touch, at the midpoint of two neighbours, and one of these is odd.
  have same : exactCount magnitude = exactCount (other - 1) := by omega
  have neighbours : magnitude = other - 1 := exactCount_strictMono.injective same
  by_cases odd : magnitude % 2 = 1
  · have strict := (oddAbove odd).2
    omega
  · have strict := (oddBelow (by omega)).1
    omega

/-- A decimal reads back as one number only. -/
theorem eq_of_readsAs (first : readsAs magnitude count = true)
    (second : readsAs other count = true) : magnitude = other := by
  rcases Nat.lt_trichotomy magnitude other with smaller | same | larger
  · exact absurd second (not_readsAs_of_lt smaller first)
  · exact same
  · exact absurd first (not_readsAs_of_lt larger second)

/-- The exact count of a magnitude is read as it. -/
theorem readsAs_exactCount (magnitude : Nat) : readsAs magnitude (exactCount magnitude) = true := by
  have upper : exactCount magnitude < exactCount (magnitude + 1) :=
    exactCount_strictMono (Nat.lt_succ_self _)
  have lower : exactCount (magnitude - 1) ≤ exactCount magnitude :=
    exactCount_strictMono.monotone (Nat.sub_le _ _)
  refine readsAs_iff.mpr ⟨by omega, fun odd => ?_⟩
  have strict : exactCount (magnitude - 1) < exactCount magnitude :=
    exactCount_strictMono (by omega)
  omega

/-- A count found on a grid is read as the magnitude it was searched for. -/
theorem readsAs_of_onGrid? {exponent : Nat} (found : onGrid? magnitude exponent = some count) :
    readsAs magnitude count = true := by
  unfold onGrid? at found
  dsimp only at found
  split at found
  next lower upper =>
    rw [Option.some.injEq] at found
    subst found
    split
    · exact lower
    · exact upper
  next lower _ =>
    rw [Option.some.injEq] at found
    exact found ▸ lower
  next _ upper =>
    rw [Option.some.injEq] at found
    exact found ▸ upper
  next => cases found

/-- The shortest count is read as the magnitude. -/
theorem readsAs_shortest (magnitude : Nat) : readsAs magnitude (shortest magnitude) = true := by
  unfold shortest
  dsimp only
  cases found : List.findSome? (onGrid? magnitude) _ with
  | none => exact readsAs_exactCount magnitude
  | some count =>
      obtain ⟨exponent, -, onGrid⟩ := List.exists_of_findSome?_eq_some found
      exact readsAs_of_onGrid? onGrid

/-! ### Digits -/

/-- The text of a count, with digits on each side of the point. -/
def decimalText (count : Nat) : List Char :=
  wholeDigits count ++
    '.' :: (if (fractionDigits count).isEmpty then ['0'] else fractionDigits count)

/-- The count of a text of digits with a point between them. -/
def countOf (text : List Char) : Nat :=
  let fraction := (text.dropWhile (· != '.')).tail
  Nat.ofDigitChars 10 (text.takeWhile (· != '.')) 0 * Nat.pow 10 places +
    Nat.ofDigitChars 10 fraction 0 * Nat.pow 10 (places - fraction.length)

/-- Before the point stand digits. -/
theorem isDigit_of_mem_wholeDigits {char : Char} (member : char ∈ wholeDigits count) :
    char.isDigit = true :=
  Nat.isDigit_of_mem_toDigits (by decide) (by decide) member

/-- Before the point stands no point. -/
theorem ne_point_of_mem_wholeDigits {char : Char} (member : char ∈ wholeDigits count) :
    (char != '.') = true := by
  have digit := isDigit_of_mem_wholeDigits member
  simp only [bne_iff_ne]
  rintro rfl
  cases digit

/-- The digits of a count below one, down to the last place. -/
def paddedDigits (count : Nat) : List Char :=
  let digits := Nat.toDigits 10 (count % Nat.pow 10 places)
  List.replicate (places - digits.length) '0' ++ digits

/-- A number below a power of ten has at most as many digits as the exponent. -/
theorem length_toDigits_le {number width : Nat} (positive : 0 < width)
    (below : number < Nat.pow 10 width) : (Nat.toDigits 10 number).length ≤ width :=
  (Nat.length_toDigits_le_iff (by decide) positive).mpr below

/-- The padded digits fill all decimal places. -/
theorem length_paddedDigits (count : Nat) : (paddedDigits count).length = places := by
  have short := length_toDigits_le (show 0 < places by decide)
    (Nat.mod_lt count (power_pos (by decide) places))
  rw [paddedDigits, List.length_append, List.length_replicate]
  omega

/-- The padded digits are read as the part of the count after the point. -/
theorem ofDigitChars_paddedDigits (count : Nat) :
    Nat.ofDigitChars 10 (paddedDigits count) 0 = count % Nat.pow 10 places := by
  rw [paddedDigits, Nat.ofDigitChars_append, Nat.ofDigitChars_replicate_zero, Nat.mul_zero,
    Nat.ofDigitChars_ten_toDigits]

/-- Only zeros are dropped at the end. -/
theorem fractionDigits_append (count : Nat) :
    fractionDigits count ++ List.replicate (places - (fractionDigits count).length) '0' =
      paddedDigits count := by
  let zeros := (paddedDigits count).reverse.takeWhile (· == '0')
  have whole : fractionDigits count ++ zeros.reverse = paddedDigits count := by
    rw [fractionDigits, ← List.reverse_append]
    exact (congrArg List.reverse List.takeWhile_append_dropWhile).trans
      (List.reverse_reverse _)
  have allZeros : zeros.reverse = List.replicate zeros.reverse.length '0' := by
    apply List.eq_replicate_of_mem
    intro char member
    exact eq_of_beq (List.all_eq_true.mp List.all_takeWhile char (List.mem_reverse.mp member))
  have length := congrArg List.length whole
  rw [List.length_append, length_paddedDigits] at length
  have count_eq : places - (fractionDigits count).length = zeros.reverse.length := by omega
  rw [count_eq, ← allZeros, whole]

/-- After the point stand digits. -/
theorem isDigit_of_mem_fractionDigits {char : Char} (member : char ∈ fractionDigits count) :
    char.isDigit = true := by
  have padded : char ∈ paddedDigits count := by
    rw [← fractionDigits_append]
    exact List.mem_append_left _ member
  rcases List.mem_append.mp padded with isZero | isDigit
  · rw [List.eq_of_mem_replicate isZero]
    rfl
  · exact Nat.isDigit_of_mem_toDigits (by decide) (by decide) isDigit

/-- The digits after the point give the part of the count below one. -/
theorem ofDigitChars_fractionDigits (count : Nat) :
    Nat.ofDigitChars 10 (fractionDigits count) 0 *
        Nat.pow 10 (places - (fractionDigits count).length) = count % Nat.pow 10 places := by
  rw [← ofDigitChars_paddedDigits, ← fractionDigits_append, Nat.ofDigitChars_append,
    Nat.ofDigitChars_replicate_zero, Nat.mul_comm]
  rfl

/-- The text of a count is read digit by digit. -/
theorem countOf_decimalText (count : Nat) : countOf (decimalText count) = count := by
  have noPoint : ∀ char ∈ wholeDigits count, (char != '.') = true :=
    fun _ => ne_point_of_mem_wholeDigits
  have isWhole : (decimalText count).takeWhile (· != '.') = wholeDigits count := by
    rw [decimalText, List.takeWhile_append_of_pos noPoint]
    simp
  have isFraction : ((decimalText count).dropWhile (· != '.')).tail =
      if (fractionDigits count).isEmpty then ['0'] else fractionDigits count := by
    rw [decimalText, List.dropWhile_append_of_pos noPoint]
    simp
  have fractionValue := ofDigitChars_fractionDigits count
  unfold countOf
  rw [isWhole, isFraction, wholeDigits, Nat.ofDigitChars_ten_toDigits]
  dsimp only
  by_cases none : (fractionDigits count).isEmpty = true
  · rw [List.isEmpty_iff.mp none, Nat.ofDigitChars_nil, Nat.zero_mul] at fractionValue
    rw [if_pos none, Nat.ofDigitChars_cons, Nat.ofDigitChars_nil]
    simp only [Nat.mul_zero, Nat.sub_self, Nat.add_zero, Nat.zero_mul]
    exact Nat.div_mul_cancel (Nat.dvd_of_mod_eq_zero fractionValue.symm)
  · rw [if_neg none, fractionValue, Nat.div_add_mod']

/-- A decimal text starts with a digit. -/
theorem exists_head_decimalText (count : Nat) :
    ∃ first, (decimalText count).head? = some first ∧ first.isDigit = true := by
  obtain ⟨first, rest, isWhole⟩ := List.exists_cons_of_ne_nil
    (show wholeDigits count ≠ [] from Nat.toDigits_ne_nil)
  have member : first ∈ wholeDigits count := by
    rw [isWhole]
    exact List.mem_cons_self
  refine ⟨first, ?_, isDigit_of_mem_wholeDigits member⟩
  rw [decimalText, isWhole]
  rfl

/-- A decimal text has digits and a point, and nothing else. -/
theorem isDigit_or_point_of_mem_decimalText {char : Char} (member : char ∈ decimalText count) :
    char.isDigit = true ∨ char = '.' := by
  rw [decimalText, List.mem_append, List.mem_cons] at member
  rcases member with whole | point | fraction
  · exact Or.inl (isDigit_of_mem_wholeDigits whole)
  · exact Or.inr point
  · split at fraction
    · rw [List.mem_singleton.mp fraction]
      exact Or.inl rfl
    · exact Or.inl (isDigit_of_mem_fractionDigits fraction)

/-! ### Literals -/

variable {left right number : Binary64}

/-- The count that the literal of a magnitude shows. -/
def shownCount (magnitude : Nat) : Nat :=
  if isIntegral magnitude then exactCount magnitude else shortest magnitude

/-- The count that is shown is read as the magnitude. -/
theorem readsAs_shownCount (magnitude : Nat) : readsAs magnitude (shownCount magnitude) = true := by
  unfold shownCount
  split
  · exact readsAs_exactCount magnitude
  · exact readsAs_shortest magnitude

/-- A sign and the text of the count that the literal of a number shows. -/
def literalChars (number : Binary64) : List Char :=
  number.signDigits ++ decimalText (shownCount number.magnitude)

/-- A number is its sign and its magnitude. -/
theorem eq_of_magnitude (sign : left.isNegative = right.isNegative)
    (same : left.magnitude = right.magnitude) : left = right := by
  obtain ⟨leftBits⟩ := left
  obtain ⟨rightBits⟩ := right
  have leftBound := leftBits.toNat_lt
  have rightBound := rightBits.toNat_lt
  have signs : signPlace ≤ leftBits.toNat ↔ signPlace ≤ rightBits.toNat := by
    simpa [isNegative] using sign
  simp only [magnitude, signPlace] at signs same
  rw [UInt64.toNat_inj.mp (show leftBits.toNat = rightBits.toNat by omega)]

/-- A sign is told apart from the digits after it. -/
theorem signDigits_append_inj {digits others : List Char} (noSign : digits.head? ≠ some '-')
    (noOther : others.head? ≠ some '-')
    (same : left.signDigits ++ digits = right.signDigits ++ others) :
    left.isNegative = right.isNegative ∧ digits = others := by
  unfold signDigits at same
  cases leftSign : left.isNegative with
  | true =>
      cases rightSign : right.isNegative with
      | true => simpa [leftSign, rightSign] using same
      | false =>
          simp only [leftSign, rightSign, ↓reduceIte, Bool.false_eq_true, List.nil_append] at same
          exact absurd (congrArg List.head? same).symm noOther
  | false =>
      cases rightSign : right.isNegative with
      | true =>
          simp only [leftSign, rightSign, ↓reduceIte, Bool.false_eq_true, List.nil_append] at same
          exact absurd (congrArg List.head? same) noSign
      | false => simpa [leftSign, rightSign] using same

/-- A decimal text does not start with a sign. -/
theorem head?_decimalText_ne (count : Nat) : (decimalText count).head? ≠ some '-' := by
  obtain ⟨first, isFirst, isDigit⟩ := exists_head_decimalText count
  rw [isFirst]
  rintro ⟨⟩
  cases isDigit

/-- The text of a literal belongs to one number. -/
theorem literalChars_injective : Function.Injective literalChars := by
  intro left right same
  obtain ⟨sign, digits⟩ := signDigits_append_inj (head?_decimalText_ne _)
    (head?_decimalText_ne _) same
  have counts := congrArg countOf digits
  rw [countOf_decimalText, countOf_decimalText] at counts
  refine eq_of_magnitude sign (eq_of_readsAs (readsAs_shownCount _) ?_)
  rw [counts]
  exact readsAs_shownCount _

/-! ### Displayed numbers -/

/-- The text of a count, with a point only where digits follow it. -/
def displayText (count : Nat) : List Char :=
  wholeDigits count ++
    if (fractionDigits count).isEmpty then [] else '.' :: fractionDigits count

/-- A displayed count is read back as the count. -/
theorem countOf_displayText (count : Nat) : countOf (displayText count) = count := by
  by_cases none : (fractionDigits count).isEmpty = true
  · have isWhole : displayText count = wholeDigits count := by
      rw [displayText, if_pos none, List.append_nil]
    have allWhole : (wholeDigits count).takeWhile (· != '.') = wholeDigits count :=
      List.takeWhile_eq_self_iff.mpr fun _ => ne_point_of_mem_wholeDigits
    have noFraction : (wholeDigits count).dropWhile (· != '.') = [] :=
      List.dropWhile_eq_nil_iff.mpr fun _ => ne_point_of_mem_wholeDigits
    have fractionValue := ofDigitChars_fractionDigits count
    rw [List.isEmpty_iff.mp none, Nat.ofDigitChars_nil, Nat.zero_mul] at fractionValue
    rw [countOf, isWhole, allWhole, noFraction, wholeDigits, Nat.ofDigitChars_ten_toDigits]
    simp only [List.tail_nil, Nat.ofDigitChars_nil, Nat.zero_mul, Nat.add_zero]
    exact Nat.div_mul_cancel (Nat.dvd_of_mod_eq_zero fractionValue.symm)
  · have pointed : displayText count = decimalText count := by
      rw [displayText, decimalText, if_neg none, if_neg none]
    rw [pointed, countOf_decimalText]

/-- What is displayed after the sign of a number that is not undefined. -/
def displayBody (magnitude : Nat) : List Char :=
  if magnitude < infinityMagnitude then displayText (shortest magnitude) else "inf".toList

/-- A number that is defined is displayed by its sign and its magnitude. -/
theorem toList_display (defined : number.isNaN = false) :
    number.display.toList = number.signDigits ++ displayBody number.magnitude := by
  rw [display, if_neg (by simp [defined]), String.toList_ofList]
  simp only [displayBody, displayText, isFinite, decide_eq_true_eq]

/-- A displayed magnitude starts with a digit, or with the letter of the infinities. -/
theorem exists_head_displayBody (magnitude : Nat) : ∃ first rest,
    displayBody magnitude = first :: rest ∧
      if magnitude < infinityMagnitude then first.isDigit = true else first = 'i' := by
  unfold displayBody
  split
  · obtain ⟨first, rest, isWhole⟩ := List.exists_cons_of_ne_nil
      (show wholeDigits (shortest magnitude) ≠ [] from Nat.toDigits_ne_nil)
    refine ⟨first, _, by rw [displayText, isWhole, List.cons_append], ?_⟩
    exact isDigit_of_mem_wholeDigits (isWhole ▸ List.mem_cons_self)
  · exact ⟨'i', ['n', 'f'], rfl, rfl⟩

/-- A displayed magnitude starts with no other character. -/
theorem head?_displayBody_ne {char : Char} (magnitude : Nat) (notDigit : char.isDigit = false)
    (other : char ≠ 'i') : (displayBody magnitude).head? ≠ some char := by
  obtain ⟨first, rest, body, isFirst⟩ := exists_head_displayBody magnitude
  rw [body]
  rintro ⟨⟩
  split at isFirst
  · rw [isFirst] at notDigit
    cases notDigit
  · exact other isFirst

/-- The text of a number is not empty. -/
theorem display_ne_nil (number : Binary64) : number.display.toList ≠ [] := by
  cases defined : number.isNaN with
  | true =>
      rw [display, if_pos defined]
      decide
  | false =>
      obtain ⟨first, rest, body, -⟩ := exists_head_displayBody number.magnitude
      rw [toList_display defined, body]
      exact List.append_ne_nil_of_right_ne_nil _ (List.cons_ne_nil first rest)

/-- A displayed body belongs to one magnitude. -/
theorem displayBody_inj (leftDefined : magnitude ≤ infinityMagnitude)
    (rightDefined : other ≤ infinityMagnitude) (same : displayBody magnitude = displayBody other) :
    magnitude = other := by
  obtain ⟨first, rest, leftBody, isFirst⟩ := exists_head_displayBody magnitude
  obtain ⟨second, others, rightBody, isSecond⟩ := exists_head_displayBody other
  have sameHead : first = second := (List.cons.inj (leftBody ▸ rightBody ▸ same)).1
  subst sameHead
  by_cases leftFinite : magnitude < infinityMagnitude
  · by_cases rightFinite : other < infinityMagnitude
    · rw [displayBody, if_pos leftFinite, displayBody, if_pos rightFinite] at same
      have counts := congrArg countOf same
      rw [countOf_displayText, countOf_displayText] at counts
      exact eq_of_readsAs (readsAs_shortest magnitude) (counts ▸ readsAs_shortest other)
    · rw [if_pos leftFinite] at isFirst
      rw [if_neg rightFinite] at isSecond
      rw [isSecond] at isFirst
      cases isFirst
  · by_cases rightFinite : other < infinityMagnitude
    · rw [if_neg leftFinite] at isFirst
      rw [if_pos rightFinite, isFirst] at isSecond
      cases isSecond
    · omega

/-- A sign and a body do not spell the text of the undefined numbers. -/
theorem display_ne_undefined (defined : left.isNaN = false) (undefined : right.isNaN = true) :
    left.display ≠ right.display := by
  intro same
  have texts := congrArg String.toList same
  rw [toList_display defined, display, if_pos undefined, signDigits] at texts
  have heads : _ = some 'N' := congrArg List.head? texts
  split at heads
  · cases heads
  · exact head?_displayBody_ne left.magnitude rfl (by decide) heads

/-- Numbers that are displayed alike are equal or both undefined. -/
theorem display_inj (same : left.display = right.display) :
    left = right ∨ left.isNaN = true ∧ right.isNaN = true := by
  cases leftDefined : left.isNaN with
  | true =>
      cases rightDefined : right.isNaN with
      | true => exact Or.inr ⟨rfl, rfl⟩
      | false => exact absurd same.symm (display_ne_undefined rightDefined leftDefined)
  | false =>
      cases rightDefined : right.isNaN with
      | true => exact absurd same (display_ne_undefined leftDefined rightDefined)
      | false =>
          have texts := congrArg String.toList same
          rw [toList_display leftDefined, toList_display rightDefined] at texts
          obtain ⟨sign, bodies⟩ := signDigits_append_inj
            (head?_displayBody_ne _ rfl (by decide)) (head?_displayBody_ne _ rfl (by decide)) texts
          have bounded : ∀ {number : Binary64}, number.isNaN = false →
              number.magnitude ≤ infinityMagnitude := fun defined =>
            Nat.le_of_not_lt (of_decide_eq_false defined)
          exact Or.inl (eq_of_magnitude sign
            (displayBody_inj (bounded leftDefined) (bounded rightDefined) bodies))

/-- A number is displayed by digits, a sign, a point and the letters of two words. -/
theorem mem_display {char : Char} (member : char ∈ number.display.toList) :
    char.isDigit = true ∨ char ∈ ['-', '.', 'N', 'a', 'i', 'n', 'f'] := by
  cases defined : number.isNaN with
  | true =>
      rw [display, if_pos defined] at member
      exact Or.inr ((show "NaN".toList ⊆ ['-', '.', 'N', 'a', 'i', 'n', 'f'] by decide) member)
  | false =>
      rw [toList_display defined, signDigits, displayBody, List.mem_append] at member
      rcases member with sign | body
      · split at sign
        · rw [List.mem_singleton.mp sign]
          exact Or.inr (by decide)
        · cases sign
      · split at body
        · rw [displayText, List.mem_append] at body
          rcases body with whole | fraction
          · exact Or.inl (isDigit_of_mem_wholeDigits whole)
          · split at fraction
            · cases fraction
            · rcases List.mem_cons.mp fraction with rfl | digit
              · exact Or.inr (by decide)
              · exact Or.inl (isDigit_of_mem_fractionDigits digit)
        · exact Or.inr ((show "inf".toList ⊆ ['-', '.', 'N', 'a', 'i', 'n', 'f'] by decide) body)

end Shading.Binary64
