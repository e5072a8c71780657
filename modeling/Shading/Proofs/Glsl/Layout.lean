import Shading.Glsl.Source
import Shading.Proofs.Glsl.Phrase

/-!
# Layout of source texts

A source text is read line by line. Declarations end with a semicolon and the head of the main
function does not, so the declarations and the body can be told apart
(`SourceLines.eq_of_render`). Inputs, uniforms and outputs are declared with different keywords,
and a statement shows the name that it writes before anything else. So a listing, which is a program
with the texts of its outputs, is determined by its text, in each dialect and for each stage
(`Listing.Proper.eq_of_render`).
-/

namespace Shading.Glsl

/-! ### Lines -/

/-- There is no line break in the text. -/
def OneLine (text : String) : Prop :=
  '\n' ∉ text.toList

instance (text : String) : Decidable (OneLine text) :=
  inferInstanceAs (Decidable ('\n' ∉ text.toList))

/-- A text is on one line if both of its parts are. -/
theorem oneLine_append {first second : String} :
    OneLine (first ++ second) ↔ OneLine first ∧ OneLine second := by
  rw [OneLine, String.toList_append, List.mem_append, not_or]
  rfl

/-- An identifier is on one line. -/
theorem oneLine_of_isIdentifier {word : String} (identifier : isIdentifier word = true) :
    OneLine word := by
  obtain ⟨-, letters⟩ := Bool.and_eq_true_iff.mp identifier
  intro member
  cases List.all_eq_true.mp letters '\n' member

theorem OneLine.ne_break {text : String} (oneLine : OneLine text) :
    ∀ char ∈ text.toList, (char != '\n') = true := by
  intro char member
  refine bne_iff_ne.mpr fun isBreak => ?_
  exact oneLine (isBreak ▸ member)

/-- A text of lines is its first line, a break and the other lines. -/
theorem toList_join_cons (line : String) (lines : List String) :
    (String.join ((line :: lines).map (· ++ "\n"))).toList =
      line.toList ++ '\n' :: (String.join (lines.map (· ++ "\n"))).toList := by
  simp [String.join_cons]

/-- Lines are told apart by the breaks after them. -/
theorem join_lines_inj {left right : List String} (leftLines : ∀ line ∈ left, OneLine line)
    (rightLines : ∀ line ∈ right, OneLine line)
    (same : String.join (left.map (· ++ "\n")) = String.join (right.map (· ++ "\n"))) :
    left = right := by
  induction left generalizing right with
  | nil =>
      cases right with
      | nil => rfl
      | cons other right => simp [String.join_cons] at same
  | cons line left ih =>
      cases right with
      | nil => simp [String.join_cons] at same
      | cons other right =>
          rw [List.forall_mem_cons] at leftLines rightLines
          have chars := congrArg String.toList same
          rw [toList_join_cons, toList_join_cons] at chars
          obtain ⟨sameLine, sameRest⟩ := append_inj_of_class leftLines.1.ne_break
            rightLines.1.ne_break (outside_cons rfl) (outside_cons rfl) chars
          rw [String.toList_inj.mp sameLine, ih leftLines.2 rightLines.2
            (String.toList_inj.mp (List.cons.inj sameRest).2)]

namespace SourceLines

/-- Lines without breaks, and declarations that are closed. -/
structure Proper (lines : SourceLines) : Prop where
  declarations : ∀ line ∈ lines.declarations, OneLine line ∧ line.toList.getLast? = some ';'
  body : ∀ line ∈ lines.body, OneLine line

/-- All lines of the text. -/
def rendered (lines : SourceLines) (options : EmitOptions) : List String :=
  [options.dialect.marker, "precision " ++ options.precision.keyword ++ " float;"] ++
    (lines.declarations ++ "void main(void) \x7b" :: (lines.body.map ("  " ++ ·) ++ ["\x7d"]))

/-- The rendered text is made of the lines with a break after each. -/
theorem render_eq (lines : SourceLines) (options : EmitOptions) :
    lines.render options = String.join ((lines.rendered options).map (· ++ "\n")) := by
  rw [render, rendered]
  simp only [List.append_assoc, List.cons_append]

/-- Every line of a proper text is on one line. -/
theorem Proper.oneLine {lines : SourceLines} (proper : lines.Proper) {options : EmitOptions}
    {line : String} (member : line ∈ lines.rendered options) : OneLine line := by
  simp only [rendered, List.mem_append, List.mem_cons, List.not_mem_nil, or_false,
    List.mem_map] at member
  rcases member with (rfl | rfl) | declaration | rfl | ⟨statement, inBody, rfl⟩ | rfl
  · cases options.dialect <;> decide
  · cases options.precision <;> decide
  · exact (proper.declarations line declaration).1
  · decide
  · exact oneLine_append.mpr ⟨by decide, proper.body statement inBody⟩
  · decide

/-- The declarations and the body can be read from the text. -/
theorem eq_of_render {left right : SourceLines} (leftProper : left.Proper)
    (rightProper : right.Proper) {options : EmitOptions}
    (same : left.render options = right.render options) :
    left.declarations = right.declarations ∧ left.body = right.body := by
  rw [render_eq, render_eq] at same
  have sameLines := join_lines_inj (fun _ => leftProper.oneLine) (fun _ => rightProper.oneLine) same
  have closed : ∀ lines : SourceLines, lines.Proper → ∀ line ∈ lines.declarations,
      (line.toList.getLast? == some ';') = true :=
    fun lines proper line member => beq_iff_eq.mpr (proper.declarations line member).2
  obtain ⟨sameDeclarations, sameMain⟩ := append_inj_of_class (closed left leftProper)
    (closed right rightProper) (outside_cons (by decide)) (outside_cons (by decide))
    (List.append_cancel_left sameLines)
  have sameBody := List.append_cancel_right (List.cons.inj sameMain).2
  have injective : Function.Injective ("  " ++ · : String → String) :=
    fun _ _ => (String.append_right_inj "  ").mp
  exact ⟨sameDeclarations, List.map_injective_iff.mpr injective sameBody⟩

end SourceLines

/-! ### Declarations -/

/-- The names of the types are identifiers. -/
theorem isIdentifier_typeName (type : ValueType) : isIdentifier type.name = true :=
  (Callee.construct type).isIdentifier_word

/-- Different types have different names. -/
theorem typeName_injective : Function.Injective ValueType.name :=
  fun _ _ same => Callee.construct.inj (Callee.word_injective same)

/-- What is declared, and the keyword that tells as what. -/
structure Declaration where
  keyword : String
  entry : Interface

namespace Declaration

variable {declaration left right : Declaration}

/-- The line of a declaration. -/
def line (declaration : Declaration) : String :=
  declaration.keyword ++ " " ++ declaration.entry.type.name ++ " " ++ declaration.entry.name ++ ";"

/-- The keyword and the name are identifiers. -/
structure Proper (declaration : Declaration) : Prop where
  keyword : isIdentifier declaration.keyword = true
  name : isIdentifier declaration.entry.name = true

/-- The line of a declaration, character by character. -/
theorem toList_line (declaration : Declaration) :
    declaration.line.toList = declaration.keyword.toList ++
      ' ' :: (declaration.entry.type.name.toList ++
        ' ' :: (declaration.entry.name.toList ++ [';'])) := by
  simp [line]

/-- The line of a proper declaration has no break and ends with a semicolon. -/
theorem Proper.line_closed (proper : declaration.Proper) :
    OneLine declaration.line ∧ declaration.line.toList.getLast? = some ';' := by
  constructor
  · have typeLine := oneLine_of_isIdentifier (isIdentifier_typeName declaration.entry.type)
    have keywordLine := oneLine_of_isIdentifier proper.keyword
    have nameLine := oneLine_of_isIdentifier proper.name
    simp only [line, oneLine_append]
    exact ⟨⟨⟨⟨⟨keywordLine, by decide⟩, typeLine⟩, by decide⟩, nameLine⟩, by decide⟩
  · rw [line, String.toList_append]
    exact List.getLast?_concat

/-- A declaration is read word by word. -/
theorem Proper.eq_of_line (leftProper : left.Proper) (rightProper : right.Proper)
    (same : left.line = right.line) : left = right := by
  obtain ⟨keyword, name, type⟩ := left
  obtain ⟨otherKeyword, otherName, otherType⟩ := right
  have chars := congrArg String.toList same
  rw [toList_line, toList_line] at chars
  obtain ⟨rfl, chars⟩ := Phrase.word_append_inj leftProper.keyword rightProper.keyword
    (outside_cons rfl) (outside_cons rfl) chars
  obtain ⟨sameType, chars⟩ := Phrase.word_append_inj (isIdentifier_typeName type)
    (isIdentifier_typeName otherType) (outside_cons rfl) (outside_cons rfl) (List.cons.inj chars).2
  obtain rfl := typeName_injective sameType
  obtain ⟨rfl, -⟩ := Phrase.word_append_inj leftProper.name rightProper.name (outside_cons rfl)
    (outside_cons rfl) (List.cons.inj chars).2
  rfl

/-- Proper declarations are determined by their lines. -/
theorem eq_of_lines {left right : List Declaration}
    (leftProper : ∀ declaration ∈ left, declaration.Proper)
    (rightProper : ∀ declaration ∈ right, declaration.Proper)
    (same : left.map line = right.map line) : left = right := by
  induction left generalizing right with
  | nil => exact (List.map_eq_nil_iff.mp same.symm).symm
  | cons first left ih =>
      cases right with
      | nil => cases same
      | cons other right =>
          obtain ⟨sameFirst, sameRest⟩ := List.cons.inj same
          rw [List.forall_mem_cons] at leftProper rightProper
          rw [leftProper.1.eq_of_line rightProper.1 sameFirst,
            ih leftProper.2 rightProper.2 sameRest]

/-- What is declared with a keyword at the start of some declarations ends where that keyword
does. -/
theorem append_inj_of_keyword {keyword : String} {left right : List Interface}
    {rest others : List Declaration}
    (afterLeft : ∀ declaration ∈ rest, declaration.keyword ≠ keyword)
    (afterRight : ∀ declaration ∈ others, declaration.keyword ≠ keyword)
    (same : left.map (mk keyword) ++ rest = right.map (mk keyword) ++ others) :
    left = right ∧ rest = others := by
  have inside : ∀ entries : List Interface, ∀ declaration ∈ entries.map (mk keyword),
      (declaration.keyword == keyword) = true := by
    intro entries declaration member
    obtain ⟨entry, -, rfl⟩ := List.mem_map.mp member
    exact beq_self_eq_true keyword
  obtain ⟨sameBlock, sameRest⟩ := append_inj_of_class (inside left) (inside right)
    (fun declaration isHead => beq_eq_false_iff_ne.mpr
      (afterLeft declaration (List.mem_of_mem_head? isHead)))
    (fun declaration isHead => beq_eq_false_iff_ne.mpr
      (afterRight declaration (List.mem_of_mem_head? isHead))) same
  have injective : Function.Injective (mk keyword) := fun _ _ same => (mk.inj same).2
  exact ⟨List.map_injective_iff.mpr injective sameBlock, sameRest⟩

end Declaration

/-! ### Statements -/

/-- The statement that writes a text to a variable. -/
def assignment (name text : String) : String :=
  name ++ " = " ++ text ++ ";"

/-- An assignment is on one line if its parts are. -/
theorem oneLine_assignment {name text : String} (nameLine : OneLine name)
    (textLine : OneLine text) : OneLine (assignment name text) := by
  simp only [assignment, oneLine_append]
  exact ⟨⟨⟨nameLine, by decide⟩, textLine⟩, by decide⟩

/-- An assignment to a given variable is determined by its text. -/
theorem assignment_inj {name text otherText : String}
    (same : assignment name text = assignment name otherText) : text = otherText := by
  rw [assignment, assignment, String.append_left_inj, String.append_right_inj] at same
  exact same

/-- The name in a statement ends before the first blank. -/
theorem name_of_assignment {name other text otherText : String}
    (identifier : isIdentifier name = true) (otherIdentifier : isIdentifier other = true)
    (same : assignment name text = assignment other otherText) : name = other := by
  have chars := congrArg String.toList same
  simp only [assignment, String.toList_append, List.append_assoc] at chars
  exact (Phrase.word_append_inj identifier otherIdentifier (outside_cons rfl) (outside_cons rfl)
    chars).1

/-- Outputs are declared, except by fragment programs of the older dialect. -/
def declaresOutputs (dialect : Dialect) : Stage → Bool
  | .vertex => true
  | .fragment => dialect != .glsl100

/-- One keyword of the older dialect declares the outputs of one stage and the inputs of the other,
but never both in one text. -/
theorem outputKeyword_ne_inputKeyword {dialect : Dialect} {stage : Stage}
    (declared : declaresOutputs dialect stage = true) :
    dialect.outputKeyword ≠ dialect.inputKeyword stage := by
  cases dialect <;> cases stage <;> revert declared <;> decide

/-- An output and the text that is written to it. -/
structure WrittenOutput where
  entry : Interface
  text : String

namespace WrittenOutput

variable {dialect : Dialect} {stage : Stage} {output other : WrittenOutput}

/-- The declaration of an output, if it is declared apart from its statement. -/
def declarations (dialect : Dialect) (stage : Stage) (output : WrittenOutput) : List Declaration :=
  if declaresOutputs dialect stage then [⟨dialect.outputKeyword, output.entry⟩] else []

/-- The statement that writes an output. -/
def statement (dialect : Dialect) (stage : Stage) (output : WrittenOutput) : String :=
  let assigned := assignment output.entry.name output.text
  if declaresOutputs dialect stage then assigned else output.entry.type.name ++ " " ++ assigned

/-- The lines of an output are its declarations and its statement. -/
theorem ofOutput_eq (dialect : Dialect) (stage : Stage) (output : WrittenOutput) :
    SourceLines.ofOutput dialect stage output.entry.type output.entry.name output.text =
      { declarations := (output.declarations dialect stage).map Declaration.line
        body := [output.statement dialect stage] } := by
  cases stage with
  | vertex => rfl
  | fragment =>
      cases dialect with
      | glsl100 =>
          simp [SourceLines.ofOutput, declarations, statement, assignment, declaresOutputs,
            String.append_assoc]
      | glsl300es => rfl

/-- All outputs of a program have the same number of declarations. -/
theorem length_declarations (output other : WrittenOutput) :
    (output.declarations dialect stage).length = (other.declarations dialect stage).length := by
  unfold declarations
  split <;> rfl

/-- An output is declared under its name and type, where outputs are declared at all. -/
theorem mem_declarations {declaration : Declaration} :
    declaration ∈ output.declarations dialect stage ↔
      declaresOutputs dialect stage = true ∧
        declaration = ⟨dialect.outputKeyword, output.entry⟩ := by
  unfold declarations
  split <;> simp_all

/-- The name is an identifier, and the text has no line breaks. -/
structure Proper (output : WrittenOutput) : Prop where
  name : isIdentifier output.entry.name = true
  text : OneLine output.text

/-- The statement of a proper output is on one line. -/
theorem Proper.oneLine_statement (proper : output.Proper) :
    OneLine (output.statement dialect stage) := by
  have assigned := oneLine_assignment (oneLine_of_isIdentifier proper.name) proper.text
  unfold statement
  dsimp only
  split
  · exact assigned
  · rw [oneLine_append, oneLine_append]
    exact ⟨⟨oneLine_of_isIdentifier (isIdentifier_typeName _), by decide⟩, assigned⟩

/-- An output can be read from its declaration and its statement. -/
theorem Proper.eq_of_lines (proper : output.Proper) (otherProper : other.Proper)
    (sameDeclarations : output.declarations dialect stage = other.declarations dialect stage)
    (sameStatement : output.statement dialect stage = other.statement dialect stage) :
    output = other := by
  obtain ⟨⟨name, type⟩, text⟩ := output
  obtain ⟨⟨otherName, otherType⟩, otherText⟩ := other
  unfold declarations at sameDeclarations
  unfold statement at sameStatement
  by_cases declared : declaresOutputs dialect stage = true
  · rw [if_pos declared, if_pos declared] at sameDeclarations sameStatement
    cases sameDeclarations
    obtain rfl : text = otherText := assignment_inj sameStatement
    rfl
  · rw [if_neg declared, if_neg declared] at sameStatement
    have chars : type.name.toList ++ ' ' :: (assignment name text).toList =
        otherType.name.toList ++ ' ' :: (assignment otherName otherText).toList := by
      simpa using congrArg String.toList sameStatement
    obtain ⟨sameType, sameRest⟩ := Phrase.word_append_inj (isIdentifier_typeName type)
      (isIdentifier_typeName otherType) (outside_cons rfl) (outside_cons rfl) chars
    have sameAssignment := String.toList_inj.mp (List.cons.inj sameRest).2
    obtain rfl := typeName_injective sameType
    obtain rfl := name_of_assignment proper.name otherProper.name sameAssignment
    rw [assignment_inj sameAssignment]

/-- Proper outputs are determined by their declarations and statements together. -/
theorem eq_of_lists {left right : List WrittenOutput}
    (leftProper : ∀ output ∈ left, output.Proper) (rightProper : ∀ output ∈ right, output.Proper)
    (sameDeclarations : left.flatMap (declarations dialect stage) =
      right.flatMap (declarations dialect stage))
    (sameStatements : left.map (statement dialect stage) = right.map (statement dialect stage)) :
    left = right := by
  induction left generalizing right with
  | nil => exact (List.map_eq_nil_iff.mp sameStatements.symm).symm
  | cons first left ih =>
      cases right with
      | nil => cases sameStatements
      | cons other right =>
          rw [List.forall_mem_cons] at leftProper rightProper
          obtain ⟨sameFirst, sameRest⟩ := List.cons.inj sameStatements
          obtain ⟨firstDeclared, restDeclared⟩ :=
            List.append_inj sameDeclarations (length_declarations first other)
          rw [leftProper.1.eq_of_lines rightProper.1 firstDeclared sameFirst,
            ih leftProper.2 rightProper.2 restDeclared sameRest]

end WrittenOutput

/-! ### Listings -/

/-- The statement that writes the built-in output, if there is one. -/
def lastStatements (last : Option (Builtin × String)) : List String :=
  last.toList.map fun written => assignment written.1.target written.2

/-- The last statement determines the text written to a given built-in variable. -/
theorem eq_of_lastStatements {left right : Option (Builtin × String)}
    (sameBuiltin : left.map Prod.fst = right.map Prod.fst)
    (same : lastStatements left = lastStatements right) : left = right := by
  cases left with
  | none => rw [Option.map_eq_none_iff.mp sameBuiltin.symm]
  | some written =>
      obtain ⟨builtin, text⟩ := written
      obtain ⟨other, isOther, sameTarget⟩ := Option.map_eq_some_iff.mp sameBuiltin.symm
      obtain ⟨_, otherText⟩ := other
      cases sameTarget
      rw [isOther] at same ⊢
      rw [show text = otherText from assignment_inj (List.cons.inj same).1]

/-- What the source text of a program shows. -/
@[ext]
structure Listing where
  inputs : List Interface
  uniforms : List Interface
  /-- The outputs that are not built-in. -/
  outputs : List WrittenOutput
  /-- The built-in output with its text. -/
  last : Option (Builtin × String)

namespace Listing

variable {dialect : Dialect} {stage : Stage} {listing left right : Listing}

/-- The declarations of a listing. -/
def declarations (dialect : Dialect) (stage : Stage) (listing : Listing) : List Declaration :=
  listing.inputs.map (.mk (dialect.inputKeyword stage)) ++
    (listing.uniforms.map (.mk "uniform") ++
      listing.outputs.flatMap (WrittenOutput.declarations dialect stage))

/-- The lines of a listing. -/
def lines (dialect : Dialect) (stage : Stage) (listing : Listing) : SourceLines where
  declarations := (listing.declarations dialect stage).map Declaration.line
  body := listing.outputs.map (WrittenOutput.statement dialect stage) ++
    lastStatements listing.last

/-- The names are identifiers, and the texts have no line breaks. -/
structure Proper (listing : Listing) : Prop where
  inputs : ∀ input ∈ listing.inputs, isIdentifier input.name = true
  uniforms : ∀ uniform ∈ listing.uniforms, isIdentifier uniform.name = true
  outputs : ∀ output ∈ listing.outputs, output.Proper
  last : ∀ last ∈ listing.last, OneLine last.1.target ∧ OneLine last.2

/-- The declarations of a proper listing are proper. -/
theorem Proper.declarations (proper : listing.Proper) :
    ∀ declaration ∈ listing.declarations dialect stage, declaration.Proper := by
  have inputKeyword : isIdentifier (dialect.inputKeyword stage) = true := by
    cases dialect <;> cases stage <;> decide
  have uniformKeyword : isIdentifier "uniform" = true := by decide
  have outputKeyword : isIdentifier dialect.outputKeyword = true := by
    cases dialect <;> decide
  intro declaration member
  simp only [Listing.declarations, List.mem_append, List.mem_map, List.mem_flatMap] at member
  rcases member with ⟨input, isInput, rfl⟩ | ⟨uniform, isUniform, rfl⟩ | ⟨output, isOutput, member⟩
  · exact ⟨inputKeyword, proper.inputs input isInput⟩
  · exact ⟨uniformKeyword, proper.uniforms uniform isUniform⟩
  · obtain ⟨-, rfl⟩ := WrittenOutput.mem_declarations.mp member
    exact ⟨outputKeyword, (proper.outputs output isOutput).name⟩

/-- The lines of a proper listing are proper. -/
theorem Proper.lines (proper : listing.Proper) : (listing.lines dialect stage).Proper where
  declarations line member := by
    obtain ⟨declaration, isDeclaration, rfl⟩ := List.mem_map.mp member
    exact (proper.declarations declaration isDeclaration).line_closed
  body line member := by
    simp only [Listing.lines, lastStatements, List.mem_append, List.mem_map,
      Option.mem_toList] at member
    rcases member with ⟨output, isOutput, rfl⟩ | ⟨last, isLast, rfl⟩
    · exact (proper.outputs output isOutput).oneLine_statement
    · exact oneLine_assignment (proper.last last isLast).1 (proper.last last isLast).2

/-- Each kind of declaration has its own keyword. -/
theorem eq_of_declarations
    (same : left.declarations dialect stage = right.declarations dialect stage) :
    left.inputs = right.inputs ∧ left.uniforms = right.uniforms ∧
      left.outputs.flatMap (WrittenOutput.declarations dialect stage) =
        right.outputs.flatMap (WrittenOutput.declarations dialect stage) := by
  have uniformKeyword : "uniform" ≠ dialect.inputKeyword stage := by
    cases dialect <;> cases stage <;> decide
  have outputKeyword : dialect.outputKeyword ≠ "uniform" := by
    cases dialect <;> decide
  have afterUniforms : ∀ (outputs : List WrittenOutput),
      ∀ declaration ∈ outputs.flatMap (WrittenOutput.declarations dialect stage),
        declaration.keyword ≠ "uniform" := by
    intro outputs declaration member
    obtain ⟨output, -, isDeclaration⟩ := List.mem_flatMap.mp member
    rw [(WrittenOutput.mem_declarations.mp isDeclaration).2]
    exact outputKeyword
  have afterInputs : ∀ (uniforms : List Interface) (outputs : List WrittenOutput),
      ∀ declaration ∈ uniforms.map (.mk "uniform") ++
          outputs.flatMap (WrittenOutput.declarations dialect stage),
        declaration.keyword ≠ dialect.inputKeyword stage := by
    intro uniforms outputs declaration member
    rcases List.mem_append.mp member with isUniform | isOutput
    · obtain ⟨uniform, -, rfl⟩ := List.mem_map.mp isUniform
      exact uniformKeyword
    · obtain ⟨output, -, isDeclaration⟩ := List.mem_flatMap.mp isOutput
      obtain ⟨declared, rfl⟩ := WrittenOutput.mem_declarations.mp isDeclaration
      exact outputKeyword_ne_inputKeyword declared
  obtain ⟨sameInputs, sameRest⟩ :=
    Declaration.append_inj_of_keyword (afterInputs _ _) (afterInputs _ _) same
  obtain ⟨sameUniforms, sameOutputs⟩ :=
    Declaration.append_inj_of_keyword (afterUniforms _) (afterUniforms _) sameRest
  exact ⟨sameInputs, sameUniforms, sameOutputs⟩

/-- A listing can be read from its text, if it is known whether there is a built-in output. -/
theorem Proper.eq_of_render (leftProper : left.Proper) (rightProper : right.Proper)
    {options : EmitOptions} (sameBuiltin : left.last.map Prod.fst = right.last.map Prod.fst)
    (same : (left.lines options.dialect stage).render options =
      (right.lines options.dialect stage).render options) : left = right := by
  obtain ⟨sameLines, sameBody⟩ := SourceLines.eq_of_render leftProper.lines rightProper.lines same
  obtain ⟨sameInputs, sameUniforms, sameDeclarations⟩ := eq_of_declarations
    (Declaration.eq_of_lines leftProper.declarations rightProper.declarations sameLines)
  have sameLength : (lastStatements left.last).length = (lastStatements right.last).length := by
    have sameCount := congrArg (fun builtin => builtin.toList.length) sameBuiltin
    simpa [lastStatements, Option.toList_map] using sameCount
  obtain ⟨sameStatements, sameLast⟩ := List.append_inj' sameBody sameLength
  have sameOutputs := WrittenOutput.eq_of_lists leftProper.outputs rightProper.outputs
    sameDeclarations sameStatements
  exact Listing.ext sameInputs sameUniforms sameOutputs (eq_of_lastStatements sameBuiltin sameLast)

end Listing

end Shading.Glsl
