import Mathlib.Algebra.Order.Field.Power
import Mathlib.Tactic.FieldSimp
import Mathlib.Tactic.Linarith
import Mathlib.Tactic.Ring
import Shading.Proofs.Binary64.Literal

/-!
# Correct rounding

The value of a finite number is a rational, given by the fields of its bits (`Binary64.value`). A
signed amount is rounded to the nearest finite number, to the one with an even last bit if two are
equally near, and to an infinity from the middle between the largest finite number and `2¹⁰²⁴` on
(`Binary64.RoundsTo`). There is at most one such number (`Binary64.RoundsTo.unique`), and a count
that reads back as a finite magnitude is rounded to it (`Binary64.roundsTo_of_readsAs`).
-/

namespace Shading.Binary64

/-! ### Values -/

/-- What is subtracted from the exponent field. -/
def bias : ℤ :=
  1023

/-- The absolute value of a finite number. The significand starts with a one before the point,
unless the exponent field is zero, which stands for the exponent of one. -/
def size (magnitude : Nat) : ℚ :=
  let exponent := magnitude / exponentPlace
  let fraction : ℚ := (magnitude % exponentPlace : Nat) / exponentPlace
  if exponent = 0 then fraction * 2 ^ (1 - bias) else (1 + fraction) * 2 ^ (exponent - bias)

/-- An amount with its sign. -/
def signed (negative : Bool) (amount : ℚ) : ℚ :=
  if negative then -amount else amount

/-- The value of a finite number. -/
def value (number : Binary64) : ℚ :=
  signed number.isNegative (size number.magnitude)

theorem cast_power (base exponent : Nat) :
    ((Nat.pow base exponent : Nat) : ℚ) = (base : ℚ) ^ exponent :=
  Nat.cast_pow base exponent

theorem cast_exponentPlace : (exponentPlace : ℚ) = 2 ^ 52 := by
  norm_num [exponentPlace]

/-- The power of an exponent field, in units of the smallest positive number. -/
theorem power_exponent {exponent : Nat} (positive : 0 < exponent) :
    (2 : ℚ) ^ ((exponent : ℤ) - bias) =
      exponentPlace * 2 ^ (exponent - 1) / 2 ^ places := by
  have inUnits : (exponent : ℤ) - bias = ((52 + (exponent - 1) : Nat) : ℤ) - (places : Nat) := by
    unfold bias places
    omega
  rw [inUnits, zpow_sub₀ two_ne_zero, zpow_natCast, zpow_natCast, pow_add, cast_exponentPlace]

/-- The size of a magnitude is its number of smallest steps. -/
theorem size_eq_units (magnitude : Nat) : size magnitude = units magnitude / 2 ^ places := by
  have place : (exponentPlace : ℚ) ≠ 0 := Nat.cast_ne_zero.mpr (Nat.ne_of_gt exponentPlace_pos)
  unfold size units
  dsimp only
  by_cases lowest : magnitude / exponentPlace = 0
  · have power := power_exponent Nat.one_pos
    rw [Nat.cast_one, Nat.sub_self, pow_zero, mul_one] at power
    rw [if_pos lowest, if_pos lowest, power, div_mul_div_cancel₀ place]
  · rw [if_neg lowest, if_neg lowest, power_exponent (Nat.pos_of_ne_zero lowest), Nat.cast_mul,
      cast_power, Nat.cast_add]
    field_simp
    rfl

/-- The number that a count of `10⁻¹⁰⁷⁴` stands for. -/
def countValue (count : Nat) : ℚ :=
  count / 10 ^ places

/-- The size of a magnitude is what its exact count stands for. -/
theorem size_eq_countValue (magnitude : Nat) :
    size magnitude = countValue (exactCount magnitude) := by
  have ten : (10 : ℚ) ^ places = 2 ^ places * 5 ^ places := by
    rw [← mul_pow]
    norm_num
  have positive : (5 : ℚ) ^ places ≠ 0 := pow_ne_zero _ (by norm_num)
  rw [size_eq_units, countValue, exactCount, Nat.cast_mul, cast_power, ten]
  exact (mul_div_mul_right _ _ positive).symm

/-- A larger count stands for a larger number. -/
theorem countValue_strictMono : StrictMono countValue := by
  intro first second less
  have positive : (0 : ℚ) < 10 ^ places := pow_pos (by norm_num) _
  exact div_lt_div_of_pos_right (Nat.cast_lt.mpr less) positive

/-- A larger magnitude has a larger size. -/
theorem size_strictMono : StrictMono size := by
  intro first second less
  rw [size_eq_countValue, size_eq_countValue]
  exact countValue_strictMono (exactCount_strictMono less)

theorem size_zero : size 0 = 0 := by
  rw [size_eq_units]
  simp [units]

theorem size_nonneg (magnitude : Nat) : 0 ≤ size magnitude := by
  rw [← size_zero]
  exact size_strictMono.monotone (Nat.zero_le _)

/-! ### Distances -/

/-- Numbers of one sign are as far apart as their amounts. -/
theorem abs_signed_sub (negative : Bool) (amount other : ℚ) :
    |signed negative amount - signed negative other| = |amount - other| := by
  cases negative with
  | false => rfl
  | true => exact (congrArg abs (neg_sub_neg amount other)).trans (abs_sub_comm other amount)

/-- A sign is given to one amount only. -/
theorem signed_injective (negative : Bool) : Function.Injective (signed negative) := by
  cases negative with
  | false => exact Function.injective_id
  | true => exact neg_injective

/-- Counts add up as the numbers do. -/
theorem countValue_add (first second : Nat) :
    countValue (first + second) = countValue first + countValue second := by
  rw [countValue, Nat.cast_add, add_div]
  rfl

theorem countValue_nonneg (count : Nat) : 0 ≤ countValue count :=
  div_nonneg (Nat.cast_nonneg count) (pow_nonneg (by norm_num) _)

variable {magnitude count other : Nat}

/-- A count lies between the midpoints to the neighbours of the number it reads back as. -/
theorem midpoints_of_readsAs (reads : readsAs magnitude count = true) :
    (size (magnitude - 1) + size magnitude ≤ countValue count + countValue count ∧
      countValue count + countValue count ≤ size magnitude + size (magnitude + 1)) ∧
      (magnitude % 2 = 1 →
        size (magnitude - 1) + size magnitude < countValue count + countValue count ∧
          countValue count + countValue count < size magnitude + size (magnitude + 1)) := by
  simp only [size_eq_countValue, ← countValue_add, ← Nat.two_mul, countValue_strictMono.le_iff_le,
    countValue_strictMono.lt_iff_lt]
  exact readsAs_iff.mp reads

/-- A count is no nearer to another number, and it is nearer to a number with an odd last bit. -/
theorem distances_of_readsAs (reads : readsAs magnitude count = true)
    (different : other ≠ magnitude) :
    |countValue count - size magnitude| ≤ |countValue count - size other| ∧
      (magnitude % 2 = 1 →
        |countValue count - size magnitude| < |countValue count - size other|) := by
  obtain ⟨⟨below, above⟩, strictly⟩ := midpoints_of_readsAs reads
  rcases Nat.lt_or_gt_of_ne different with smaller | larger
  · have lower : size other ≤ size (magnitude - 1) := size_strictMono.monotone (by omega)
    have upper : size other < size magnitude := size_strictMono smaller
    have distance : countValue count - size other ≤ |countValue count - size other| := le_abs_self _
    refine ⟨(abs_le.mpr ⟨by linarith, by linarith⟩).trans distance, fun odd => ?_⟩
    have strict := (strictly odd).1
    exact (abs_lt.mpr ⟨by linarith, by linarith⟩).trans_le distance
  · have lower : size magnitude < size other := size_strictMono larger
    have upper : size (magnitude + 1) ≤ size other := size_strictMono.monotone larger
    have distance : -(countValue count - size other) ≤ |countValue count - size other| :=
      neg_le_abs _
    refine ⟨(abs_le.mpr ⟨by linarith, by linarith⟩).trans distance, fun odd => ?_⟩
    have strict := (strictly odd).2
    exact (abs_lt.mpr ⟨by linarith, by linarith⟩).trans_le distance

/-! ### Rounding -/

/-- The middle between the largest finite number and `2¹⁰²⁴`. -/
def overflow : ℚ :=
  2 ^ 1024 - 2 ^ 970

/-- A number is the correctly rounded one of an amount with a sign: the nearest one, with an even
last bit if another value is equally near. An amount from `overflow` on is rounded to an
infinity, and a zero has the sign of the amount. -/
structure RoundsTo (negative : Bool) (amount : ℚ) (number : Binary64) : Prop where
  sign : number.isNegative = negative
  defined : number.isNaN = false
  finite_iff : number.isFinite = true ↔ amount < overflow
  nearest : number.isFinite = true → ∀ other : Binary64, other.isFinite = true →
    |signed negative amount - number.value| ≤ |signed negative amount - other.value|
  even : number.isFinite = true → ∀ other : Binary64, other.isFinite = true →
    |signed negative amount - number.value| = |signed negative amount - other.value| →
      other.value ≠ number.value → number.magnitude % 2 = 0

/-- The size that the magnitude of the infinities would have. -/
theorem size_infinity : size infinityMagnitude = 2 ^ 1024 := by
  have exponent : infinityMagnitude / exponentPlace = 2047 := by decide
  have fraction : infinityMagnitude % exponentPlace = 0 := by decide
  have power : ((2047 : Nat) : ℤ) - bias = (1024 : Nat) := by decide
  rw [size, exponent, fraction, if_neg (by decide), power, zpow_natCast]
  norm_num

/-- The largest finite number has an all-ones fraction and the exponent field below the one of the
infinities. -/
theorem overflow_eq :
    overflow + overflow = size (infinityMagnitude - 1) + size infinityMagnitude := by
  have exponent : (infinityMagnitude - 1) / exponentPlace = 2046 := by decide
  have fraction : (infinityMagnitude - 1) % exponentPlace = exponentPlace - 1 := by decide
  have power : ((2046 : Nat) : ℤ) - bias = (53 + 970 : Nat) := by decide
  have last : size (infinityMagnitude - 1) = (1 + (2 ^ 52 - 1) / 2 ^ 52) * (2 ^ 53 * 2 ^ 970) := by
    rw [size, exponent, fraction, if_neg (by decide), power, zpow_natCast, pow_add,
      Nat.cast_sub exponentPlace_pos, cast_exponentPlace, Nat.cast_one]
  have infinite : (2 : ℚ) ^ 1024 = 2 ^ 54 * 2 ^ 970 := by rw [← pow_add]
  rw [overflow, last, size_infinity, infinite]
  generalize (2 : ℚ) ^ 970 = step
  ring

/-- Numbers of 64 bits are kept by their bits. -/
theorem toNat_ofNat {bits : Nat} (inside : bits < 2 * signPlace) :
    (UInt64.ofNat bits).toNat = bits :=
  UInt64.toNat_ofNat_of_lt' inside

/-- There is a number of each sign and magnitude. -/
theorem exists_number (negative : Bool) (inside : magnitude < signPlace) :
    ∃ number : Binary64, number.isNegative = negative ∧ number.magnitude = magnitude := by
  cases negative with
  | false =>
      have bits := toNat_ofNat (show magnitude < 2 * signPlace by omega)
      refine ⟨⟨.ofNat magnitude⟩, decide_eq_false ?_, ?_⟩
      · rw [bits]
        exact Nat.not_le_of_lt inside
      · rw [Binary64.magnitude, bits, Nat.mod_eq_of_lt inside]
  | true =>
      have bits := toNat_ofNat (show signPlace + magnitude < 2 * signPlace by omega)
      refine ⟨⟨.ofNat (signPlace + magnitude)⟩, decide_eq_true ?_, ?_⟩
      · rw [bits]
        exact Nat.le_add_right _ _
      · rw [Binary64.magnitude, bits, Nat.add_mod_left, Nat.mod_eq_of_lt inside]

/-- What is read as a finite magnitude does not overflow. -/
theorem countValue_lt_overflow (inside : magnitude < infinityMagnitude)
    (reads : readsAs magnitude count = true) : countValue count < overflow := by
  obtain ⟨⟨-, above⟩, strictly⟩ := midpoints_of_readsAs reads
  have middle := overflow_eq
  by_cases last : magnitude = infinityMagnitude - 1
  · subst last
    -- The largest finite number is odd, so the midpoint above it is not read back as it.
    have strict : _ < _ + size infinityMagnitude := (strictly (by decide)).2
    linarith
  · have lower : size magnitude < size (infinityMagnitude - 1) := size_strictMono (by omega)
    have upper : size (magnitude + 1) ≤ size infinityMagnitude :=
      size_strictMono.monotone inside
    linarith

/-- A signed amount is no nearer to a number of the other sign than to zero. So its distance to any
number is at least the distance of the amount to some magnitude. -/
theorem exists_same_sign {amount : ℚ} (nonneg : 0 ≤ amount) (negative : Bool) (other : Binary64) :
    ∃ magnitude, (magnitude = 0 ∨ signed negative (size magnitude) = other.value) ∧
      |amount - size magnitude| ≤ |signed negative amount - other.value| := by
  by_cases same : other.isNegative = negative
  · refine ⟨other.magnitude, Or.inr (by rw [value, same]), ?_⟩
    rw [value, same, abs_signed_sub]
  · have opposite : other.value = signed negative (-size other.magnitude) := by
      rw [value, Bool.eq_not_of_ne same]
      cases negative with
      | false => rfl
      | true => exact (neg_neg _).symm
    have positive := size_nonneg other.magnitude
    refine ⟨0, Or.inl rfl, ?_⟩
    rw [opposite, abs_signed_sub, size_zero, sub_zero, sub_neg_eq_add, abs_of_nonneg nonneg]
    exact (le_add_of_nonneg_right positive).trans (le_abs_self _)

/-- A count is correctly rounded to the number that it reads back as. -/
theorem roundsTo_of_readsAs {number : Binary64} (finite : number.isFinite = true)
    (reads : readsAs number.magnitude count = true) :
    RoundsTo number.isNegative (countValue count) number where
  sign := rfl
  defined := isNaN_of_isFinite finite
  finite_iff := iff_of_true finite (countValue_lt_overflow (isFinite_iff.mp finite) reads)
  nearest := by
    intro _ other _
    obtain ⟨magnitude, -, farther⟩ :=
      exists_same_sign (countValue_nonneg count) number.isNegative other
    rw [value, abs_signed_sub]
    apply le_trans _ farther
    by_cases same : magnitude = number.magnitude
    · rw [same]
    · exact (distances_of_readsAs reads same).1
  even := by
    intro _ other _ tie different
    obtain ⟨magnitude, isOther, farther⟩ :=
      exists_same_sign (countValue_nonneg count) number.isNegative other
    by_contra notEven
    have odd : number.magnitude % 2 = 1 := by omega
    have apart : magnitude ≠ number.magnitude := by
      rintro rfl
      rcases isOther with zero | same
      · rw [zero] at odd
        cases odd
      · exact different same.symm
    have nearer := (distances_of_readsAs reads apart).2 odd
    rw [← tie, value, abs_signed_sub] at farther
    exact absurd nearer (not_lt_of_ge farther)

section Uniqueness

variable {negative : Bool} {amount : ℚ} {left right : Binary64}

/-- The value of a number, from its sign and the size of its magnitude. -/
theorem value_of_sign {number : Binary64} (sign : number.isNegative = negative) :
    number.value = signed negative (size number.magnitude) := by
  rw [value, sign]

/-- Of two numbers that are equally near, a number between them is nearer. -/
theorem abs_sub_lt_of_between {low middle high : ℚ} (above : low < middle) (below : middle < high)
    (tie : |amount - low| = |amount - high|) : |amount - middle| < |amount - low| := by
  rcases abs_eq_abs.mp tie with same | opposite
  · linarith
  · have distance : amount - low ≤ |amount - low| := le_abs_self _
    exact abs_lt.mpr ⟨by linarith, by linarith⟩

/-- Two results would both be even, with a nearer number between them. -/
theorem RoundsTo.not_lt (first : RoundsTo negative amount left)
    (second : RoundsTo negative amount right) (finite : right.isFinite = true) :
    ¬left.magnitude < right.magnitude := by
  intro less
  have inside := isFinite_iff.mp finite
  have leftFinite : left.isFinite = true := isFinite_iff.mpr (less.trans inside)
  have tie := le_antisymm (first.nearest leftFinite right finite)
    (second.nearest finite left leftFinite)
  have leftValue := value_of_sign first.sign
  have rightValue := value_of_sign second.sign
  have different : right.value ≠ left.value := by
    rw [leftValue, rightValue]
    exact fun same => (size_strictMono less).ne' (signed_injective negative same)
  have leftEven := first.even leftFinite right finite tie different
  have rightEven := second.even finite left leftFinite tie.symm different.symm
  have below : left.magnitude + 1 < right.magnitude := by omega
  have small : infinityMagnitude < signPlace := by decide
  obtain ⟨between, sign, isBetween⟩ :=
    exists_number negative (show left.magnitude + 1 < signPlace by omega)
  have near := first.nearest leftFinite between (isFinite_iff.mpr (by omega))
  rw [leftValue, rightValue, abs_signed_sub, abs_signed_sub] at tie
  rw [leftValue, value_of_sign sign, isBetween, abs_signed_sub, abs_signed_sub] at near
  exact absurd near (not_le_of_gt (abs_sub_lt_of_between
    (size_strictMono (Nat.lt_succ_self _)) (size_strictMono below) tie))

/-- An amount is correctly rounded to one number only. -/
theorem RoundsTo.unique (first : RoundsTo negative amount left)
    (second : RoundsTo negative amount right) : left = right := by
  apply eq_of_magnitude (first.sign.trans second.sign.symm)
  have finite_iff := first.finite_iff.trans second.finite_iff.symm
  by_cases finite : left.isFinite = true
  · exact Nat.le_antisymm (Nat.le_of_not_lt (second.not_lt first finite))
      (Nat.le_of_not_lt (first.not_lt second (finite_iff.mp finite)))
  · have infinite : ∀ {number : Binary64}, ¬number.isFinite = true → number.isNaN = false →
        number.magnitude = infinityMagnitude := by
      intro number notFinite defined
      rw [isFinite_iff] at notFinite
      have bounded := of_decide_eq_false defined
      omega
    rw [infinite finite first.defined, infinite (finite_iff.not.mp finite) second.defined]

end Uniqueness

end Shading.Binary64
