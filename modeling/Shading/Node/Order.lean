import Shading.Node

/-!
# Order on nodes

Nodes are ordered by a code: rows of numbers, compared from left to right. Different nodes have
different codes (`Node.code_injective`), so a pool can find a structure by comparing codes.
-/

namespace Shading

/-- A place in a list that holds every value in its own place belongs to one value only. -/
theorem eq_of_index {α : Type} {all : List α} {index : α → Nat}
    (placed : ∀ value, all[index value]? = some value) {left right : α}
    (same : index left = index right) : left = right := by
  have found := placed left
  rw [same, placed] at found
  exact (Option.some.inj found).symm

/-- The code of a text. -/
def textCode (text : String) : List Nat :=
  text.toList.map Char.toNat

/-- Different texts have different codes. -/
theorem textCode_injective {left right : String} (same : textCode left = textCode right) :
    left = right := by
  refine String.toList_inj.mp (List.map_inj_right ?_ |>.mp same)
  intro first second sameChar
  exact Char.toNat_inj.mp sameChar

namespace Node

/-- The code of a declaration. -/
def interfaceCode (interface : Interface) : List Nat :=
  interface.type.index :: textCode interface.name

/-- The code of an output. -/
def outputCode (output : String × NodeId) : List Nat :=
  output.2 :: textCode output.1

/-- The code of a node. The first row tells the kind, so a row has its meaning from the rows before
it. -/
def code : Node → List (List Nat)
  | constant type components => [[0, type.index], components.map (·.bits.toNat)]
  | var type name => [[1, type.index], textCode name]
  | unary op operand => [[2, op.index, operand]]
  | binary lhs op rhs => [[3, lhs, op.index, rhs]]
  | qualified kind inner => [[4, kind.index, inner]]
  | shader program =>
    [5, program.stage.index, program.inputs.length, program.uniforms.length] ::
      (program.inputs.map interfaceCode ++ program.uniforms.map interfaceCode ++
        program.outputs.entries.map outputCode)

/-- Different declarations have different codes. -/
theorem interfaceCode_injective {left right : Interface}
    (same : interfaceCode left = interfaceCode right) : left = right := by
  obtain ⟨types, names⟩ := List.cons.inj same
  exact Interface.ext (textCode_injective names)
    (eq_of_index ValueType.getElem?_all_index types)

/-- Different outputs have different codes. -/
theorem outputCode_injective {left right : String × NodeId}
    (same : outputCode left = outputCode right) : left = right := by
  obtain ⟨exprs, names⟩ := List.cons.inj same
  exact Prod.ext (textCode_injective names) exprs

/-- Different lists of numbers have different bits. -/
theorem componentsCode_injective {left right : List Binary64}
    (same : left.map (·.bits.toNat) = right.map (·.bits.toNat)) : left = right := by
  refine (List.map_inj_right ?_).mp same
  intro first second sameBits
  cases first
  cases second
  exact congrArg Binary64.mk (UInt64.toNat_inj.mp sameBits)

/-- Programs with the same code are equal: the first row has the lengths of the declarations, so
the rows after it split in the same places. -/
theorem programCode_injective {left right : Program}
    (same : code (shader left) = code (shader right)) : left = right := by
  obtain ⟨head, rows⟩ := List.cons.inj same
  simp only [List.cons.injEq, true_and, and_true] at head
  obtain ⟨stages, inputLengths, uniformLengths⟩ := head
  obtain ⟨declarations, outputs⟩ := List.append_inj rows
    (by simp only [List.length_append, List.length_map, inputLengths, uniformLengths])
  obtain ⟨inputs, uniforms⟩ := List.append_inj declarations
    (by simp only [List.length_map, inputLengths])
  apply Program.ext
  · exact eq_of_index Stage.getElem?_all_index stages
  · exact (List.map_inj_right fun _ _ => interfaceCode_injective).mp inputs
  · exact (List.map_inj_right fun _ _ => interfaceCode_injective).mp uniforms
  · exact Table.ext ((List.map_inj_right fun _ _ => outputCode_injective).mp outputs)

/-- Different nodes have different codes. -/
theorem code_injective {left right : Node} (same : left.code = right.code) : left = right := by
  cases left <;> cases right
  case constant.constant =>
    simp only [code, List.cons.injEq, true_and, and_true] at same
    rw [eq_of_index ValueType.getElem?_all_index same.1, componentsCode_injective same.2]
  case var.var =>
    simp only [code, List.cons.injEq, true_and, and_true] at same
    rw [eq_of_index ValueType.getElem?_all_index same.1, textCode_injective same.2]
  case unary.unary =>
    simp only [code, List.cons.injEq, true_and, and_true] at same
    rw [eq_of_index UnaryOp.getElem?_all_index same.1, same.2]
  case binary.binary =>
    simp only [code, List.cons.injEq, true_and, and_true] at same
    rw [same.1, eq_of_index BinaryOp.getElem?_all_index same.2.1, same.2.2]
  case qualified.qualified =>
    simp only [code, List.cons.injEq, true_and, and_true] at same
    rw [eq_of_index Qualifier.getElem?_all_index same.1, same.2]
  case shader.shader => rw [programCode_injective same]
  all_goals simp [code] at same

instance : Ord Node where
  compare := compareOn code

instance : Std.TransOrd Node :=
  inferInstanceAs (Std.TransCmp (compareOn code))

instance : Std.LawfulEqOrd Node where
  toReflCmp := inferInstanceAs (Std.ReflCmp (compareOn code))
  eq_of_compare same := code_injective (Std.LawfulEqCmp.eq_of_compare same)

end Node

end Shading
