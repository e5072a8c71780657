import Shading.Proofs.Binary64.Decimal

/-!
# Literals of whole numbers and of all others

Every whole number below `2⁵³` is a number of the format (`Binary64.exists_units_eq`), and a number
that is not whole lies below `2⁵²`. So no whole decimal reads back as a number that is not whole
(`Binary64.mod_ne_zero_of_readsAs`), and the shortest decimal of such a number has digits after the
point. A whole number has the digit zero there, since rounding to one decimal leaves it as it is.
Either way the literal of a finite number is the text of one count, with digits on each side of the
point (`Binary64.literal?_eq_some_iff`).
-/

namespace Shading.Binary64

variable {magnitude count : Nat}

/-! ### Powers

The definitions write powers with `Nat.pow`. Here the exponents are variables, so that no proof
below evaluates a power of `places`. -/

theorem ten_power (exponent : Nat) :
    Nat.pow 10 exponent = Nat.pow 2 exponent * Nat.pow 5 exponent :=
  Nat.mul_pow 2 5 exponent

theorem ten_power_succ (exponent : Nat) : Nat.pow 10 (exponent + 1) = 10 * Nat.pow 10 exponent :=
  Nat.pow_succ'

theorem two_power_dvd {first second : Nat} (le : first ≤ second) :
    Nat.pow 2 first ∣ Nat.pow 2 second :=
  Nat.pow_dvd_pow 2 le

theorem two_power_add (first second : Nat) :
    Nat.pow 2 (first + second) = Nat.pow 2 first * Nat.pow 2 second :=
  Nat.pow_add 2 first second

/-! ### Whole numbers -/

/-- What stands after the point in the exact count, from the units that are not whole. -/
theorem exactCount_mod (magnitude : Nat) : exactCount magnitude % Nat.pow 10 places =
    units magnitude % Nat.pow 2 places * Nat.pow 5 places := by
  rw [exactCount, ten_power, Nat.mul_mod_mul_right]

/-- A magnitude is whole if its exact count has nothing after the point. -/
theorem isIntegral_iff :
    isIntegral magnitude = true ↔ exactCount magnitude % Nat.pow 10 places = 0 := by
  have positive : Nat.pow 5 places ≠ 0 := Nat.ne_of_gt (power_pos (by decide) places)
  unfold isIntegral
  rw [exactCount_mod, Nat.mul_eq_zero, or_iff_left positive, show 1074 = places from rfl,
    decide_eq_true_iff]

/-- The magnitude of `2⁵²`. From there on all numbers are whole. -/
def wholePlace : Nat :=
  1075 * exponentPlace

/-- The least magnitude from which on all numbers are whole, as a count. -/
theorem exactCount_wholePlace : exactCount wholePlace = exponentPlace * Nat.pow 10 places := by
  decide +kernel

/-- Large magnitudes are whole numbers. -/
theorem isIntegral_of_wholePlace_le (large : wholePlace ≤ magnitude) :
    isIntegral magnitude = true := by
  have exponent : 1075 ≤ magnitude / exponentPlace :=
    (Nat.le_div_iff_mul_le exponentPlace_pos).mpr large
  have divides : Nat.pow 2 places ∣ Nat.pow 2 (magnitude / exponentPlace - 1) :=
    two_power_dvd (Nat.le_sub_one_of_lt exponent)
  rw [isIntegral_iff, exactCount_mod, units, if_neg (by omega),
    Nat.mod_eq_zero_of_dvd (Nat.dvd_mul_left_of_dvd divides _), Nat.zero_mul]

/-- A whole number of at most 53 binary digits is a number of the format: its digits are moved to
the places of the fraction, and the exponent moves them back. -/
theorem exists_units_eq {whole : Nat} (small : whole < 2 * exponentPlace) :
    ∃ magnitude, units magnitude = whole * Nat.pow 2 places := by
  by_cases zero : whole = 0
  · exact ⟨0, by rw [zero, Nat.zero_mul]; rfl⟩
  have short : whole.log2 < 53 := (Nat.log2_lt zero).mpr small
  let moved := whole * Nat.pow 2 (52 - whole.log2)
  have lower : exponentPlace ≤ moved := by
    calc exponentPlace = Nat.pow 2 (whole.log2 + (52 - whole.log2)) := by
          rw [Nat.add_sub_cancel' (Nat.le_of_lt_succ short)]
          rfl
      _ = Nat.pow 2 whole.log2 * Nat.pow 2 (52 - whole.log2) := two_power_add _ _
      _ ≤ moved := Nat.mul_le_mul_right _ (Nat.log2_self_le zero)
  have upper : moved < 2 * exponentPlace := by
    calc moved < Nat.pow 2 (whole.log2 + 1) * Nat.pow 2 (52 - whole.log2) :=
          Nat.mul_lt_mul_of_pos_right Nat.lt_log2_self (power_pos (by decide) _)
      _ = Nat.pow 2 (whole.log2 + 1 + (52 - whole.log2)) := (two_power_add _ _).symm
      _ = 2 * exponentPlace := by
          rw [show whole.log2 + 1 + (52 - whole.log2) = 53 by omega]
          rfl
  refine ⟨(1023 + whole.log2) * exponentPlace + (moved - exponentPlace), ?_⟩
  rw [units_eq (by omega), if_neg (by omega), Nat.add_sub_cancel' lower, Nat.mul_assoc,
    ← two_power_add, show 52 - whole.log2 + (1023 + whole.log2 - 1) = places by
      unfold places
      omega]

/-- Every whole number that fits into the fraction is the number of a magnitude. -/
theorem exists_exactCount_eq {whole : Nat} (small : whole < 2 * exponentPlace) :
    ∃ magnitude, exactCount magnitude = whole * Nat.pow 10 places := by
  obtain ⟨magnitude, isWhole⟩ := exists_units_eq small
  exact ⟨magnitude, by rw [exactCount, isWhole, ten_power, Nat.mul_assoc]⟩

/-- A count that reads back as a number that is not whole has something after the point. -/
theorem mod_ne_zero_of_readsAs (fractional : isIntegral magnitude = false)
    (reads : readsAs magnitude count = true) : count % Nat.pow 10 places ≠ 0 := by
  intro zero
  let whole := count / Nat.pow 10 places
  have isWhole : count = whole * Nat.pow 10 places :=
    (Nat.div_mul_cancel (Nat.dvd_of_mod_eq_zero zero)).symm
  have below : magnitude < wholePlace := by
    by_contra large
    rw [isIntegral_of_wholePlace_le (Nat.le_of_not_lt large)] at fractional
    cases fractional
  have bounded : count ≤ exponentPlace * Nat.pow 10 places := by
    have first : exactCount magnitude ≤ exactCount wholePlace :=
      exactCount_strictMono.monotone (Nat.le_of_lt below)
    have next : exactCount (magnitude + 1) ≤ exactCount wholePlace :=
      exactCount_strictMono.monotone below
    have above := (readsAs_iff.mp reads).1.2
    rw [← exactCount_wholePlace]
    omega
  have small : whole ≤ exponentPlace :=
    Nat.le_of_mul_le_mul_right (isWhole ▸ bounded) (power_pos (by decide) places)
  -- The whole decimal is a number of its own, so it reads back as that number only.
  have positive := exponentPlace_pos
  have inside : whole < 2 * exponentPlace := by omega
  obtain ⟨own, exact⟩ := exists_exactCount_eq inside
  have ownReads : readsAs own count = true := by
    rw [isWhole, ← exact]
    exact readsAs_exactCount own
  have integral : isIntegral magnitude = true := by
    rw [isIntegral_iff, eq_of_readsAs reads ownReads, exact, Nat.mul_mod_left]
  rw [integral] at fractional
  cases fractional

/-! ### Texts -/

/-- No digits stand after the point exactly for whole counts. -/
theorem fractionDigits_eq_nil_iff : fractionDigits count = [] ↔ count % Nat.pow 10 places = 0 := by
  constructor
  · intro none
    rw [← ofDigitChars_fractionDigits, none, Nat.ofDigitChars_nil, Nat.zero_mul]
  · intro whole
    rw [fractionDigits, whole, List.reverse_eq_nil_iff, List.dropWhile_eq_nil_iff]
    intro char member
    rcases List.mem_append.mp (List.mem_reverse.mp member) with padding | digit
    · exact beq_iff_eq.mpr (List.eq_of_mem_replicate padding)
    · exact beq_iff_eq.mpr (List.mem_singleton.mp digit)

/-- There are at most as many digits after the point as decimal places. -/
theorem length_fractionDigits_le (count : Nat) : (fractionDigits count).length ≤ places := by
  rw [← length_paddedDigits count, ← fractionDigits_append, List.length_append]
  exact Nat.le_add_right _ _

/-- A whole count is rounded to ten tenths for each whole. -/
theorem tenths_whole (whole : Nat) : tenths (whole * Nat.pow 10 places) = 10 * whole := by
  have positive : 0 < Nat.pow 10 (places - 1) := power_pos (by decide) _
  have inTenths : whole * Nat.pow 10 places = 10 * whole * Nat.pow 10 (places - 1) := by
    rw [← Nat.sub_add_cancel (show 1 ≤ places by decide), ten_power_succ, Nat.add_sub_cancel,
      ← Nat.mul_assoc, Nat.mul_comm whole 10]
  have exact : decide (2 * 0 < Nat.pow 10 (places - 1)) = true := decide_eq_true positive
  unfold tenths
  rw [inTenths]
  dsimp only
  rw [Nat.mul_div_cancel _ positive, Nat.mul_mod_left, exact, Bool.true_or, if_pos rfl]

variable {number : Binary64} {text : String}

/-- A number is finite if its magnitude is below that of the infinities. -/
theorem isFinite_iff : number.isFinite = true ↔ number.magnitude < infinityMagnitude :=
  decide_eq_true_iff

/-- A finite number is defined. -/
theorem isNaN_of_isFinite (finite : number.isFinite = true) : number.isNaN = false :=
  decide_eq_false (Nat.lt_asymm (isFinite_iff.mp finite))

/-- Rounding to one decimal leaves a whole number as it is. -/
theorem toList_oneDecimal (integral : isIntegral number.magnitude = true) :
    number.oneDecimal.toList =
      number.signDigits ++ decimalText (exactCount number.magnitude) := by
  have zero := isIntegral_iff.mp integral
  obtain ⟨whole, isWhole⟩ : ∃ whole, exactCount number.magnitude = whole * Nat.pow 10 places :=
    ⟨_, (Nat.div_mul_cancel (Nat.dvd_of_mod_eq_zero zero)).symm⟩
  have noFraction : fractionDigits (whole * Nat.pow 10 places) = [] :=
    fractionDigits_eq_nil_iff.mpr (Nat.mul_mod_left _ _)
  have wholePart : wholeDigits (whole * Nat.pow 10 places) = Nat.toDigits 10 whole := by
    rw [wholeDigits, Nat.mul_div_cancel _ (power_pos (by decide) places)]
  rw [oneDecimal, isWhole, tenths_whole, decimalText, noFraction, wholePart, String.toList_ofList,
    Nat.mul_div_cancel_left _ (by decide), Nat.mul_mod_right, List.append_assoc]
  rfl

/-- A number that is not whole is displayed with digits on each side of the point. -/
theorem toList_display_of_fractional (finite : number.isFinite = true)
    (fractional : isIntegral number.magnitude = false) :
    number.display.toList = number.signDigits ++ decimalText (shortest number.magnitude) := by
  have digits : ¬(fractionDigits (shortest number.magnitude)).isEmpty = true := by
    rw [List.isEmpty_iff, fractionDigits_eq_nil_iff]
    exact mod_ne_zero_of_readsAs fractional (readsAs_shortest _)
  rw [toList_display (isNaN_of_isFinite finite), displayBody, if_pos (isFinite_iff.mp finite),
    displayText, if_neg digits, decimalText, if_neg digits]

/-- The finite numbers have a literal, a sign and the text of the count that it shows. -/
theorem literal?_eq_some_iff :
    number.literal? = some text ↔ number.isFinite = true ∧ text.toList = number.literalChars := by
  unfold literal? literalChars shownCount
  by_cases finite : number.isFinite = true
  · rw [if_pos finite, Option.some.injEq, ← String.toList_inj, and_iff_right finite, eq_comm]
    cases integral : isIntegral number.magnitude with
    | true => rw [if_pos rfl, if_pos rfl, toList_oneDecimal integral]
    | false =>
        rw [if_neg Bool.false_ne_true, if_neg Bool.false_ne_true,
          toList_display_of_fractional finite integral]
  · rw [if_neg finite]
    simp [finite]

end Shading.Binary64
