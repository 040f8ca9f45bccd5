import JsonFilter.Proofs.Json.Embedding
import JsonFilter.Proofs.Program.Decoding

/-!
# The text of a pipe

The texts of two programs give the text of the pipe of the programs, which is that of an object with the
programs for two of its members.

* `Program.pipeText`: the text of a pipe of two programs;
* `Json.pipeText_eq_objectText`: the members of the text of a pipe;
* `Json.read?_pipeText`: the document of the text of a pipe;
* `Program.parse_pipeText`: the text of a pipe is decoded as the pipe of the programs.
-/

namespace JsonFilter

/-- The text of a pipe whose programs have the given texts. -/
def Program.pipeText (source target : String) : String :=
  "\x7b\"op\":\"pipe\",\"in\":" ++ source ++ ",\"out\":" ++ target ++ "\x7d"

namespace Json

/-! ## The text of a pipe -/

/-- The text of a string is read as the string. -/
theorem read?_stringText (text : String) : read? (string text).text = some (string text) :=
  read?_of_readsBack (readsBack_of_readNested fun rest _ _ =>
    readNested_quote Text.readable_allLetters _ _ text rest)

/-- The text of a pipe is that of an object with three members. -/
theorem pipeText_eq_objectText (source target : String) :
    Program.pipeText source target =
      objectText [("op", (string "pipe").text), ("in", source), ("out", target)] := by
  have hsource : "\x7b\"op\":\"pipe\",\"in\":".toList =
      '\x7b' :: (Text.quote Text.allLetters "op".toList ++ ':' ::
        ((string "pipe").text.toList ++ ',' ::
          (Text.quote Text.allLetters "in".toList ++ [':']))) := by decide
  have htarget : ",\"out\":".toList =
      ',' :: (Text.quote Text.allLetters "out".toList ++ [':']) := by decide
  have hclose : "\x7d".toList = ['\x7d'] := by decide
  apply String.toList_injective
  unfold Program.pipeText objectText
  simp only [String.toList_append, String.toList_ofList]
  rw [hsource, htarget, hclose]
  simp [Text.braced, Text.separated, memberTextWriter, Text.named, Text.put]

/-- The document of the text of a pipe. -/
theorem read?_pipeText {source target : String} {first second : Json} (hsource : read? source = some first)
    (hfirst : first.nesting < maxNesting) (htarget : read? target = some second)
    (hsecond : second.nesting < maxNesting) :
    read? (Program.pipeText source target) =
      some (object [("op", string "pipe"), ("in", first), ("out", second)]) := by
  rw [pipeText_eq_objectText]
  refine read?_objectText (.cons ?_ (.cons ?_ (.cons ?_ .nil)))
  · exact ⟨rfl, read?_stringText "pipe", Nat.zero_le _⟩
  · exact ⟨rfl, hsource, Nat.le_of_lt_succ hfirst⟩
  · exact ⟨rfl, htarget, Nat.le_of_lt_succ hsecond⟩

end Json

namespace Program

/-! ## Decoding the text of a pipe -/

theorem orNull_of_ofJson {document : Json} {program : Program} (h : ofJson document = .ok program) :
    Json.orNull .ok document = .ok (some document) := by
  cases document with
  | null => cases h
  | _ => rfl

/-- The document of a pipe holds the pipe of the programs in it. -/
theorem ofJson_pipe {source target : Json} {first second : Program}
    (hsource : ofJson source = .ok first) (htarget : ofJson target = .ok second) :
    ofJson (.object [("op", .string "pipe"), ("in", source), ("out", target)]) =
      .ok [.pipe first second] := by
  have hrecord : Record.ofJson (.object [("op", .string "pipe"), ("in", source), ("out", target)]) =
      .ok { tag? := some "pipe", source? := some source, target? := some target } := by
    have hop := RecordField.ofName?_name .op
    have hin := RecordField.ofName?_name .source
    have hout := RecordField.ofName?_name .target
    simp only [RecordField.name] at hop hin hout
    simp [Record.ofJson, Record.setNamed, hop, hin, hout, Record.set, Json.asText,
      orNull_of_ofJson hsource, orNull_of_ofJson htarget, Traverse.ok_bind, pure, Except.pure]
  have hname : Opcode.ofName? "pipe" = some .pipe := by decide
  rw [ofJson_object, decodeRecord, hrecord, Traverse.mapError_ok, Traverse.ok_bind]
  simp only [Record.tag, Traverse.mapError_ok, Traverse.ok_bind, hname, opsOfRecord, required,
    hsource, htarget]
  rfl

/-- The text of a pipe is decoded as the pipe of the programs, if these nest less deep than texts may. -/
theorem parse_pipeText {source target : String} {first second : Program}
    (hsource : parse source = .ok first) (hfirst : Json.TextWithin 126 source)
    (htarget : parse target = .ok second) (hsecond : Json.TextWithin 126 target) :
    parse (pipeText source target) = .ok [.pipe first second] := by
  obtain ⟨sourceJson, hreadSource, hsourceNesting⟩ := hfirst
  obtain ⟨targetJson, hreadTarget, htargetNesting⟩ := hsecond
  obtain ⟨_, hreadSource', hsource⟩ := parse_eq_ok_iff.mp hsource
  obtain ⟨_, hreadTarget', htarget⟩ := parse_eq_ok_iff.mp htarget
  obtain rfl := Option.some.inj (hreadSource.symm.trans hreadSource')
  obtain rfl := Option.some.inj (hreadTarget.symm.trans hreadTarget')
  have hread := Json.read?_pipeText hreadSource (Nat.lt_succ_of_le hsourceNesting) hreadTarget
    (Nat.lt_succ_of_le htargetNesting)
  -- The three names differ, so merging keeps the members apart.
  have hmerge : (Json.object [("op", .string "pipe"), ("in", sourceJson),
      ("out", targetJson)]).mergeKeys =
        .object [("op", .string "pipe"), ("in", sourceJson.mergeKeys), ("out", targetJson.mergeKeys)] :=
    congrArg Json.object (Fields.ofList_of_nodup (by decide : ["op", "in", "out"].Nodup))
  exact parse_eq_ok_iff.mpr ⟨_, hread, hmerge ▸ ofJson_pipe hsource htarget⟩

end Program

end JsonFilter
