import JsonFilter.Proofs.Host.Pipeline
import JsonFilter.Proofs.Program.Encoding
import JsonFilter.Proofs.Value.Documents

/-!
# Inputs and literals

A text stands for the same value as an input and as the literal of a program.

* `Program.literalText`: the text of a program with one literal;
* `Program.parse_literalText`: it is decoded to the value that the text of the literal stands for;
* `executeText_literalText`: its run leaves the literal, whatever the input is;
* `executeText_literal`: the literal and the input of the same text give the same line.
-/

namespace JsonFilter

namespace Program

/-! ## The text of a literal -/

/-- The text of the program that leaves what the given text stands for. -/
def literalText (text : String) : String :=
  "[\x7b\"op\":\"literal\",\"value\":" ++ text ++ "\x7d]"

/-- The text of a literal is that of an object with two members, in brackets. -/
theorem literalText_eq_objectText (text : String) :
    literalText text =
      "[" ++ Json.objectText [("op", (Json.string "literal").text), ("value", text)] ++ "]" := by
  have hopen : "[\x7b\"op\":\"literal\",\"value\":".toList =
      '[' :: '\x7b' :: (Text.quote Text.allLetters "op".toList ++ ':' ::
        ((Json.string "literal").text.toList ++ ',' ::
          (Text.quote Text.allLetters "value".toList ++ [':']))) := by decide
  have hclose : "\x7d]".toList = ['\x7d', ']'] := by decide
  apply String.toList_injective
  unfold literalText Json.objectText
  simp only [String.toList_append, String.toList_ofList]
  rw [hopen, hclose]
  simp [Text.braced, Text.separated, Json.memberTextWriter, Text.named, Text.put]

/-- The document of the text of a literal. -/
theorem read?_literalText {text : String} {document : Json} (h : Json.read? text = some document)
    (hnesting : document.nesting ≤ 125) :
    Json.read? (literalText text) = some (.array [.opRecord .literal [(.value, document)]]) := by
  have hobject : Json.read? (Json.objectText [("op", (Json.string "literal").text), ("value", text)]) =
      some (.opRecord .literal [(.value, document)]) := by
    refine Json.read?_objectText (.cons ?_ (.cons ?_ .nil))
    · exact ⟨rfl, Json.read?_stringText "literal", Nat.zero_le _⟩
    · exact ⟨rfl, h, Nat.le_succ_of_le hnesting⟩
  have hmembers : (Json.opRecord .literal [(.value, document)]).nesting ≤ 125 + 1 :=
    Json.nesting_object_le_iff.mpr
      (List.forall_mem_cons.mpr ⟨Nat.zero_le _, List.forall_mem_singleton.mpr hnesting⟩)
  rw [literalText_eq_objectText]
  exact Json.read?_bracketed hobject hmembers

/-- The text of a literal is decoded to the value that the text in it stands for. -/
theorem parse_literalText {text : String} (hwithin : Json.TextWithin 125 text) {value : Value}
    (h : Value.parse? text = some value) : parse (literalText text) = .ok [.literal value] := by
  obtain ⟨document, hread, hnesting⟩ := hwithin
  rw [Value.parse?, hread] at h
  obtain rfl := Option.some.inj h
  -- The two names of the record differ, so merging changes nothing but the document of the literal.
  have hmerge : (Json.array [.opRecord .literal [(.value, document)]]).mergeKeys =
      .array [.opRecord .literal [(.value, document.mergeKeys)]] :=
    congrArg (fun members => Json.array [.object members])
      (Fields.ofList_of_nodup (by decide : ["op", "value"].Nodup))
  refine parse_eq_ok_iff.mpr ⟨_, read?_literalText hread hnesting, ?_⟩
  rw [hmerge, ofJson_array, List.mapM_cons, decodeRecord_literal, Value.ofJson_mergeKeys]
  rfl

end Program

/-! ## Runs -/

/-- A run of the text of a literal leaves its value, whatever the input is. -/
theorem executeText_literalText {input text : String} (hwithin : Json.TextWithin 125 text)
    {value start : Value} (h : Value.parse? text = some value) (hinput : Value.parse? input = some start) :
    executeText input (Program.literalText text) = .ok [value.compactText] := by
  rw [executeText_of_parse (Program.parse_literalText hwithin h) hinput]
  rfl

/-- A run of the identity leaves the value of the input. -/
theorem executeText_currentContext {text : String} {value : Value} (h : Value.parse? text = some value) :
    executeText text "[\x7b\"op\":\"current_context\"\x7d]" = .ok [value.compactText] := by
  have hprogram : Program.parse "[\x7b\"op\":\"current_context\"\x7d]" = .ok [.currentContext] := by cbv
  rw [executeText_of_parse hprogram h]
  rfl

/-- A text stands for a value exactly if it has a document, and then for the value of the document in which
every name of an object, however deep, is kept once, at its first place and with its last document.  So a text
that nests at most 125 deep gives the same line as the literal of a program, on any input, and as the input of
the identity. -/
theorem executeText_literal (text : String) :
    Value.parse? text = (Json.parse? text).map Value.ofJson ∧
    Json.parse? text = (Json.read? text).map Json.mergeKeys ∧
    (∀ members, (Json.object members).mergeKeys =
      .object (Fields.lastByName (Fields.mapValues Json.mergeKeys members))) ∧
    (∀ items, (Json.array items).mergeKeys = .array (items.map Json.mergeKeys)) ∧
    (∀ document : Json, document.nesting = 0 → document.mergeKeys = document) ∧
    (Json.TextWithin 125 text → ∃ value, Value.parse? text = some value ∧
      executeText text "[\x7b\"op\":\"current_context\"\x7d]" = .ok [value.compactText] ∧
      ∀ input start, Value.parse? input = some start →
        executeText input (Program.literalText text) = .ok [value.compactText]) := by
  refine ⟨Value.parse?_eq_map_ofJson text, rfl, Json.mergeKeys_object, Json.mergeKeys_array,
    fun _ => Json.mergeKeys_of_nesting_eq_zero, fun hwithin => ?_⟩
  obtain ⟨document, hread, -⟩ := id hwithin
  have hvalue : Value.parse? text = some (.ofJson document) := by rw [Value.parse?, hread, Option.map_some]
  exact ⟨_, hvalue, executeText_currentContext hvalue,
    fun input start hinput => executeText_literalText hwithin hvalue hinput⟩

/-- A repeated name, one of whose documents is written over, in a literal and in an input. -/
theorem executeText_literal_repeated :
    executeText "null" (Program.literalText "\x7b\"a\":[[]],\"b\":null,\"a\":\"c\"\x7d") =
      .ok ["\x7b\"a\":\"c\",\"b\":null\x7d"] ∧
    executeText "\x7b\"a\":[[]],\"b\":null,\"a\":\"c\"\x7d" "[\x7b\"op\":\"current_context\"\x7d]" =
      .ok ["\x7b\"a\":\"c\",\"b\":null\x7d"] := by
  have hwithin : Json.TextWithin 125 "\x7b\"a\":[[]],\"b\":null,\"a\":\"c\"\x7d" :=
    ⟨.object [("a", .array [.array []]), ("b", .null), ("a", .string "c")], by cbv, by decide⟩
  have hinput : Value.parse? "null" = some .null := by cbv
  obtain ⟨value, hvalue, hcurrent, hliteral⟩ := (executeText_literal _).2.2.2.2.2 hwithin
  have hmerged : Value.parse? "\x7b\"a\":[[]],\"b\":null,\"a\":\"c\"\x7d" =
      some (.object [("a", .string "c"), ("b", .null)]) := by cbv
  obtain rfl := Option.some.inj (hvalue.symm.trans hmerged)
  have htext : Value.compactText (.object [("a", .string "c"), ("b", .null)]) =
      "\x7b\"a\":\"c\",\"b\":null\x7d" := by cbv
  rw [htext] at hcurrent hliteral
  exact ⟨hliteral "null" .null hinput, hcurrent⟩

end JsonFilter
