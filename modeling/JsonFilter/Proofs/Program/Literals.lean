import JsonFilter.Proofs.Evaluation.WellFormed
import JsonFilter.Proofs.Program.Decoding

/-!
# The literals of decoded programs

A literal of a program stands for a document inside the one that the program is decoded from, so programs that
come from texts have well-formed literals.

* `Program.wellFormed_of_ofJson`: every program that is decoded from a well-formed document;
* `Program.wellFormed_of_parse`: every program that is decoded from a text.
-/

namespace JsonFilter

namespace Json

/-- The documents inside a well-formed one are well-formed. -/
theorem WellFormed.children {document : Json} (h : document.WellFormed) :
    document.ChildrenHave WellFormed := by
  cases h with
  | array hitems => exact hitems
  | object hmembers => exact hmembers
  | _ => trivial

/-- Merging repeated names makes no new numbers. -/
theorem WellFormed.mergeKeys {document : Json} (h : document.WellFormed) :
    document.mergeKeys.WellFormed := by
  induction h with
  | array _ ih =>
    rw [Json.mergeKeys, mergeKeysItems_eq_map]
    exact .array (List.forall_mem_map.mpr ih)
  | object _ ih =>
    rw [Json.mergeKeys, mergeKeysMembers_eq_mapValues]
    exact .object (Fields.forall_mem_ofList (List.forall_mem_map.mpr ih))
  | integer h => exact .integer h
  | float h => exact .float h
  | null => exact .null
  | bool b => exact .bool b
  | string text => exact .string text

end Json

namespace Program

/-- A program that is decoded from a well-formed document has well-formed literals. -/
theorem wellFormed_of_ofJson {document : Json} (hwell : document.WellFormed) {program : Program}
    (h : ofJson document = .ok program) : program.WellFormed := by
  rw [WellFormed, forall_hasLiteral_iff]
  refine induction_of_ofJson Json.WellFormed.children
    (fun {json record _ _} hjson hrecord hops op hop hinside => ?_) hwell h
  rw [Op.forall_hasLiteral_iff]
  refine ⟨fun value hown => ?_, fun part hpart => forall_hasLiteral_iff.mpr (hinside part hpart)⟩
  -- A literal is the value of its record, which is a part of the document of the record.
  have parts := Record.partsHave_of_ofJson Json.WellFormed.children hrecord hjson.children
  rw [(of_opsOfRecord hops hop).1 value hown]
  cases hvalue : record.value? with
  | none => exact .null
  | some part => exact Value.wellFormed_ofJson (parts.value part hvalue)

/-- A program that is decoded from a text has well-formed literals. -/
theorem wellFormed_of_parse {text : String} {program : Program} (h : parse text = .ok program) :
    program.WellFormed := by
  obtain ⟨document, hdocument, h⟩ := parse_eq_ok_iff.mp h
  exact wellFormed_of_ofJson (Json.wellFormed_of_read? hdocument).1.mergeKeys h

end Program

end JsonFilter
