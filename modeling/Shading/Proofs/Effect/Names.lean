import Shading.Effect.Stages

/-!
# Names of varyings, uniforms and attributes

The names that stages make are a stem with a number after it. Numbers of one stem give different
names, and different stems never give the same name.
-/

namespace Shading

variable {stem name : String}

/-- The name is the stem with a number after it. -/
def Numbered (stem name : String) : Prop :=
  ∃ number : Nat, name = stem ++ toString number

/-- The names that stages give to varyings. -/
abbrev VaryingName : String → Prop :=
  Numbered "v_Varying"

/-- The names that stages give to uniforms. -/
abbrev UniformName : String → Prop :=
  Numbered "u_Uniform"

/-- The names that stages give to attributes. -/
abbrev AttributeName : String → Prop :=
  Numbered "a_Attribute"

/-- The number after a stem, if there is one. -/
def numberAfter (stem name : String) : Nat :=
  Nat.ofDigitChars 10 (name.toList.drop stem.length) 0

/-- The number after a stem is read back. -/
@[simp]
theorem numberAfter_append (stem : String) (number : Nat) :
    numberAfter stem (stem ++ toString number) = number := by
  rw [numberAfter, String.toList_append, ← String.length_toList, List.drop_left,
    Nat.toString_eq_repr, Nat.toList_repr, Nat.ofDigitChars_ten_toDigits]

/-- A name is numbered if it is the stem with the number that is read back. -/
theorem numbered_iff : Numbered stem name ↔ name = stem ++ toString (numberAfter stem name) := by
  constructor
  · rintro ⟨number, rfl⟩
    rw [numberAfter_append]
  · intro eq
    exact ⟨_, eq⟩

instance : Decidable (Numbered stem name) :=
  decidable_of_iff _ numbered_iff.symm

/-- After one stem, different numbers give different names. -/
theorem append_number_injective {first second : Nat}
    (same : stem ++ toString first = stem ++ toString second) : first = second := by
  have numbers := congrArg (numberAfter stem) same
  rwa [numberAfter_append, numberAfter_append] at numbers

/-- Varyings of different numbers have different names. -/
theorem varyingName_injective {first second : Nat} (same : varyingName first = varyingName second) :
    first = second :=
  append_number_injective same

/-- Uniforms of different numbers have different names. -/
theorem uniformName_injective {first second : Nat} (same : uniformName first = uniformName second) :
    first = second :=
  append_number_injective same

/-- Attributes of different numbers have different names. -/
theorem attributeName_injective {first second : Nat}
    (same : attributeName first = attributeName second) : first = second :=
  append_number_injective same

/-- A name is not numbered after two stems that start differently. -/
theorem Numbered.not_of_head? {other : String} (numbered : Numbered stem name)
    (different : stem.toList.head? ≠ other.toList.head?)
    (stemNonempty : stem.toList ≠ []) (otherNonempty : other.toList ≠ []) :
    ¬Numbered other name := by
  have headOf : ∀ start : String, start.toList ≠ [] → ∀ number : Nat,
      (start ++ toString number).toList.head? = start.toList.head? := by
    intro start nonempty number
    obtain ⟨first, rest, chars⟩ := List.exists_cons_of_ne_nil nonempty
    rw [String.toList_append, chars]
    rfl
  obtain ⟨first, rfl⟩ := numbered
  rintro ⟨second, same⟩
  have heads := congrArg (fun text : String => text.toList.head?) same
  simp only [headOf stem stemNonempty, headOf other otherNonempty] at heads
  exact different heads

/-- A varying is not called like a uniform. -/
theorem VaryingName.not_uniformName (varying : VaryingName name) : ¬UniformName name :=
  Numbered.not_of_head? varying (by decide) (by decide) (by decide)

/-- An attribute is not called like a uniform. -/
theorem AttributeName.not_uniformName (isAttribute : AttributeName name) : ¬UniformName name :=
  Numbered.not_of_head? isAttribute (by decide) (by decide) (by decide)

/-- A uniform is not called like an attribute. -/
theorem UniformName.not_attributeName (uniform : UniformName name) : ¬AttributeName name :=
  Numbered.not_of_head? uniform (by decide) (by decide) (by decide)

/-- The names given to varyings are names of varyings. -/
theorem varyingName_isVaryingName (number : Nat) : VaryingName (varyingName number) :=
  ⟨number, rfl⟩

/-- The names given to uniforms are names of uniforms. -/
theorem uniformName_isUniformName (number : Nat) : UniformName (uniformName number) :=
  ⟨number, rfl⟩

/-- The names given to attributes are names of attributes. -/
theorem attributeName_isAttributeName (number : Nat) : AttributeName (attributeName number) :=
  ⟨number, rfl⟩

end Shading
