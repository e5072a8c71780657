import Mathlib.Data.List.Basic

/-!
# Reading texts from the left

Texts that are put together from parts are equal if their parts are, and here the other direction is
shown for two kinds of parts. Characters of a class end before the first character of no such
class, and so do lines (`append_inj_of_class`). Items between commas, up to a character that closes
the list, are told apart if each of them is told from the others by what it spells before a comma or
the end (`intercalate_append_inj`).
-/

namespace Shading

/-! ### Classes of characters -/

/-- The characters of a class at the start of a text are all before the first one of no such
class. -/
theorem append_inj_of_class {α : Type} {belongs : α → Bool} {left right rest others : List α}
    (inLeft : ∀ char ∈ left, belongs char = true) (inRight : ∀ char ∈ right, belongs char = true)
    (afterLeft : ∀ char ∈ rest.head?, belongs char = false)
    (afterRight : ∀ char ∈ others.head?, belongs char = false)
    (same : left ++ rest = right ++ others) : left = right ∧ rest = others := by
  induction left generalizing right with
  | nil =>
      cases right with
      | nil => exact ⟨rfl, same⟩
      | cons char right =>
          have inside := inRight char List.mem_cons_self
          have outside := afterLeft char (by
            rw [show rest = char :: (right ++ others) from same]
            rfl)
          rw [inside] at outside
          cases outside
  | cons char left ih =>
      cases right with
      | nil =>
          have inside := inLeft char List.mem_cons_self
          have outside := afterRight char (by
            rw [show others = char :: (left ++ rest) from same.symm]
            rfl)
          rw [inside] at outside
          cases outside
      | cons other right =>
          rw [List.cons_append, List.cons_append, List.cons.injEq] at same
          obtain ⟨rfl, same⟩ := same
          obtain ⟨rfl, sameRest⟩ := ih
            (fun char member => inLeft char (List.mem_cons_of_mem _ member))
            (fun char member => inRight char (List.mem_cons_of_mem _ member)) same
          exact ⟨rfl, sameRest⟩

/-- A list that starts outside a class of characters, as `append_inj_of_class` asks for. -/
theorem outside_cons {α : Type} {belongs : α → Bool} {char : α} {rest : List α}
    (outside : belongs char = false) :
    ∀ first ∈ (char :: rest).head?, belongs first = false := by
  rintro _ ⟨⟩
  exact outside

/-! ### Items between commas -/

/-- The texts after the first one of a list, each after a comma, and the character that closes the
list. -/
def ending (close : Char) : List (List Char) → List Char
  | [] => [close]
  | text :: rest => ',' :: (text ++ ending close rest)

/-- A list goes on with a comma or with the character that closes it. -/
def GoesOn (close : Char) (rest : List Char) : Prop :=
  ∃ char after, rest = char :: after ∧ (char = ',' ∨ char = close)

/-- A list of items up to its closing character is the first item and an ending. -/
theorem intercalate_ending (close : Char) (first : List Char) (texts : List (List Char)) :
    [','].intercalate (first :: texts) ++ [close] = first ++ ending close texts := by
  induction texts generalizing first with
  | nil => simp [ending]
  | cons second texts ih =>
      rw [List.intercalate_cons_cons, List.append_assoc, ih, ending]
      simp

variable {α : Type} {write : α → List Char} {close : Char} {left right : List α}
  {rest others : List Char}

/-- As items of a list, the two are told apart by their texts. -/
def Told (write : α → List Char) (close : Char) (item other : α) : Prop :=
  ∀ {rest others : List Char}, GoesOn close rest → GoesOn close others →
    write item ++ rest = write other ++ others → item = other ∧ rest = others

/-- An ending goes on with a comma or the closing character. -/
theorem goesOn_ending (close : Char) (texts : List (List Char)) (rest : List Char) :
    GoesOn close (ending close texts ++ rest) := by
  cases texts with
  | nil => exact ⟨close, rest, rfl, Or.inr rfl⟩
  | cons text texts => exact ⟨',', _, rfl, Or.inl rfl⟩

/-- Endings are read in one way, whatever comes after them. -/
theorem ending_append_inj (told : ∀ item ∈ left, ∀ other ∈ right, Told write close item other)
    (notComma : close ≠ ',')
    (same : ending close (left.map write) ++ rest = ending close (right.map write) ++ others) :
    left = right ∧ rest = others := by
  induction left generalizing right with
  | nil =>
      cases right with
      | nil => exact ⟨rfl, (List.cons.inj same).2⟩
      | cons other right => exact absurd (List.cons.inj same).1 notComma
  | cons item left ih =>
      cases right with
      | nil => exact absurd (List.cons.inj same).1.symm notComma
      | cons other right =>
          simp only [List.map_cons, ending, List.cons_append, List.append_assoc, List.cons.injEq,
            true_and] at same
          obtain ⟨rfl, tail⟩ := told item List.mem_cons_self other List.mem_cons_self
            (goesOn_ending _ _ _) (goesOn_ending _ _ _) same
          obtain ⟨rfl, sameRest⟩ := ih (fun item member other isOther =>
            told item (List.mem_cons_of_mem _ member) other (List.mem_cons_of_mem _ isOther)) tail
          exact ⟨rfl, sameRest⟩

/-- Items between commas are read one after the other, if no item looks like the end of the list. -/
theorem intercalate_append_inj
    (told : ∀ item ∈ left, ∀ other ∈ right, Told write close item other) (notComma : close ≠ ',')
    (opens : ∀ item ∈ left ++ right, ∀ rest, (write item ++ rest).head? ≠ some close)
    (same : [','].intercalate (left.map write) ++ close :: rest =
      [','].intercalate (right.map write) ++ close :: others) : left = right ∧ rest = others := by
  have spelled : ∀ (item : α) (items : List α) (rest : List Char),
      [','].intercalate ((item :: items).map write) ++ close :: rest =
        write item ++ (ending close (items.map write) ++ rest) := by
    intro item items rest
    rw [← List.append_assoc, ← intercalate_ending, List.append_assoc]
    rfl
  cases left with
  | nil =>
      cases right with
      | nil => exact ⟨rfl, (List.cons.inj same).2⟩
      | cons other right =>
          rw [spelled] at same
          exact absurd (congrArg List.head? same).symm (opens other List.mem_cons_self _)
  | cons item left =>
      cases right with
      | nil =>
          rw [spelled] at same
          exact absurd (congrArg List.head? same) (opens item List.mem_cons_self _)
      | cons other right =>
          rw [spelled, spelled] at same
          obtain ⟨rfl, tail⟩ := told item List.mem_cons_self other List.mem_cons_self
            (goesOn_ending _ _ _) (goesOn_ending _ _ _) same
          obtain ⟨rfl, sameRest⟩ := ending_append_inj (fun item member other isOther =>
            told item (List.mem_cons_of_mem _ member) other (List.mem_cons_of_mem _ isOther))
            notComma tail
          exact ⟨rfl, sameRest⟩

end Shading
