import JsonFilter.Proofs.Evaluation.Visits
import JsonFilter.Proofs.Host.Pipeline
import JsonFilter.Proofs.Value.TextEquality

/-!
# Well-formed values throughout

Texts and parsed documents stand for well-formed values, and so do the literals of decoded programs.  A run that
starts from such values hands only well-formed values to the programs that it enters, whether it succeeds or not.  So
no line of a run from text to text shows a number as null, and no object in its results repeats a name.

* `Evaluation.Calls.wellFormed`: what an operation hands to the programs that it calls;
* `Evaluation.Enters.wellFormed`, `Evaluation.Visits.wellFormed`: what a whole run hands on;
* `Value.compactText_number_ne_null`: numbers that are finite do not look like null;
* `Program.wellFormed_throughout`: from texts to lines.
-/

namespace JsonFilter

namespace Evaluation

variable {limit depth : Nat} {program part : Program} {op : Op} {context given : Context} {front : List Event}

/-! ## The values on the way -/

theorem wellFormed_of_runOps (hdepth : depth ≤ limit) (hprogram : program.WellFormed)
    (hcontext : ∀ v ∈ context, v.WellFormed) {evaluation : Evaluation}
    (h : (runOps limit depth program context).outcome = .ok evaluation) : evaluation.WellFormed := by
  rw [← runAt_of_le hdepth] at h
  exact Program.wellFormed_of_meaning hprogram hcontext (meaning_of_runAt h)

/-- An operation with well-formed literals hands well-formed values on. -/
theorem Calls.wellFormed {earlier : List (Program × Context)}
    (h : Calls limit depth op context earlier part given)
    (hparts : ∀ part ∈ op.parts, Program.WellFormed part) (hcontext : ∀ v ∈ context, v.WellFormed) :
    ∀ v ∈ given, v.WellFormed := by
  cases h with
  | element | entry | source => exact hcontext
  | @target source _ evaluation before after value hsource houtputs =>
    have hevaluation : evaluation.WellFormed :=
      Program.wellFormed_of_meaning (hparts source (by simp)) hcontext (meaning_of_runAt hsource)
    refine List.forall_mem_singleton.mpr (hevaluation.outputs value ?_)
    rw [houtputs]
    exact List.mem_append_right before List.mem_cons_self

/-- From well-formed values, a program with well-formed literals hands only well-formed values to the programs that
it enters, and these have well-formed literals too. -/
theorem Enters.wellFormed (h : Enters limit program context front depth part given)
    (hprogram : program.WellFormed) (hcontext : ∀ v ∈ context, v.WellFormed) :
    part.WellFormed ∧ ∀ v ∈ given, v.WellFormed := by
  induction h with
  | outermost => exact ⟨hprogram, hcontext⟩
  | @inside front depth before after part op given handed first earlier outer hdepth hbefore hcalls _ ih =>
    obtain ⟨houter, hgiven⟩ := ih
    obtain ⟨hfront, hrest⟩ := List.forall_mem_append.mp (Program.forall_hasLiteral_iff.mp houter)
    obtain ⟨-, hparts⟩ := Op.forall_hasLiteral_iff.mp (List.forall_mem_cons.mp hrest).1
    have hfirst : first.WellFormed :=
      wellFormed_of_runOps hdepth (Program.forall_hasLiteral_iff.mpr hfront) hgiven hbefore
    exact ⟨hparts part hcalls.mem_parts, hcalls.wellFormed hparts hfirst⟩

/-- All operations that such a run comes to work on well-formed values. -/
theorem Visits.wellFormed (h : Visits limit program context front depth op given)
    (hprogram : program.WellFormed) (hcontext : ∀ v ∈ context, v.WellFormed) : ∀ v ∈ given, v.WellFormed := by
  obtain ⟨outer, hdepth, hbefore⟩ := h
  obtain ⟨houter, hgiven⟩ := outer.wellFormed hprogram hcontext
  obtain ⟨hfront, -⟩ := List.forall_mem_append.mp (Program.forall_hasLiteral_iff.mp houter)
  exact wellFormed_of_runOps hdepth (Program.forall_hasLiteral_iff.mpr hfront) hgiven hbefore

end Evaluation

/-! ## From texts -/

namespace Value

/-- A parsed document stands for a well-formed value. -/
theorem wellFormed_ofJson_of_parse? {text : String} {document : Json} (h : Json.parse? text = some document) :
    (ofJson document).WellFormed := by
  obtain ⟨written, hread, rfl⟩ := Option.map_eq_some_iff.mp h
  exact wellFormed_ofJson (Json.wellFormed_of_read? hread).1.mergeKeys

/-- The text of a finite number is not that of null. -/
theorem compactText_number_ne_null {x : Binary64} (h : x.IsFinite) : compactText (number x) ≠ "null" := by
  intro htext
  have hnull : compactText null = "null" := rfl
  have hnormal : (number x).normalize = number x.unsignZero := if_pos h
  rw [← hnull, compactText_eq_iff, hnormal] at htext
  cases htext

end Value

/-- A run from text to text that succeeds gives the compact texts of what an evaluation leaves. -/
theorem exists_evaluate_of_executeText {input text : String} {lines : List String}
    (h : executeText input text = .ok lines) :
    ∃ program value evaluation, Program.parse text = .ok program ∧ Value.parse? input = some value ∧
      program.evaluate [value] {} = .ok evaluation ∧ lines = evaluation.context.map Value.compactText := by
  cases hprogram : Program.parse text with
  | error cause =>
    rw [executeText_eq, hprogram] at h
    cases h
  | ok program =>
    cases hinput : Value.parse? input with
    | none =>
      rw [executeText_eq, hprogram, hinput] at h
      cases h
    | some value =>
      obtain ⟨evaluation, hevaluate, hlines⟩ := (executeText_eq_ok_iff hprogram hinput lines).mp h
      exact ⟨program, value, evaluation, rfl, rfl, hevaluate, hlines⟩

namespace Program

open Evaluation

/-- Values from texts and from parsed documents are well-formed, and so are the literals of decoded programs.  From
well-formed values, a program with well-formed literals leaves well-formed values under every limit, and also if it
fails, it hands nothing else to the programs inside it and to their operations.  So a run from text to text has
results whose objects do not repeat names, and none of their numbers is written as null. -/
theorem wellFormed_throughout :
    (∀ text value, Value.parse? text = some value → value.WellFormed) ∧
    (∀ text document, Json.parse? text = some document → (Value.ofJson document).WellFormed) ∧
    (∀ text program, parse text = .ok program → program.WellFormed) ∧
    (∀ (program : Program) (context : Context) (options : Options),
      program.WellFormed → (∀ v ∈ context, v.WellFormed) →
        (∀ evaluation, program.evaluate context options = .ok evaluation →
          ∀ v ∈ evaluation.context, v.WellFormed) ∧
        (∀ front depth part given, Enters options.maxDepth program context front depth part given →
          ∀ v ∈ given, v.WellFormed) ∧
        ∀ front depth op given, Visits options.maxDepth program context front depth op given →
          ∀ v ∈ given, v.WellFormed) ∧
    ∀ input text lines, executeText input text = .ok lines →
      ∃ program value evaluation, parse text = .ok program ∧ Value.parse? input = some value ∧
        program.evaluate [value] {} = .ok evaluation ∧ lines = evaluation.context.map Value.compactText ∧
        ∀ result ∈ evaluation.context, result.WellFormed ∧
          ∀ x, result.HasNumber x → (Value.number x).compactText ≠ "null" := by
  refine ⟨fun text value => Value.wellFormed_of_parse?, fun text document => Value.wellFormed_ofJson_of_parse?,
    fun text program => wellFormed_of_parse, ?_, ?_⟩
  · intro program context options hprogram hcontext
    refine ⟨fun evaluation h => ?_, fun front depth part given h => ?_, fun front depth op given h => ?_⟩
    · exact wellFormed_of_meaning hprogram hcontext (meaning_of_evaluate h)
    · exact (h.wellFormed hprogram hcontext).2
    · exact h.wellFormed hprogram hcontext
  · intro input text lines h
    obtain ⟨program, value, evaluation, hprogram, hinput, hevaluate, hlines⟩ := exists_evaluate_of_executeText h
    refine ⟨program, value, evaluation, hprogram, hinput, hevaluate, hlines, fun result hresult => ?_⟩
    have hwell := wellFormed_of_texts hprogram hinput (meaning_of_evaluate hevaluate) result hresult
    exact ⟨hwell, fun x hx => Value.compactText_number_ne_null (hwell.isFinite hx)⟩

/-- A text that repeats a name stands for a well-formed value, a program inside an array constructor is handed the
value that this works on, and the number in a line is not null. -/
theorem wellFormed_throughout_createArray :
    (∃ value, Value.parse? "\x7b\"a\":1,\"a\":2\x7d" = some value ∧ value.WellFormed) ∧
    (∀ v ∈ [Value.array [.null]], v.WellFormed) ∧
    executeText "[1]" "\x7b\"op\":\"create_array\",\"values\":[\x7b\"op\":\"explode\"\x7d]\x7d" =
      .ok ["[1]"] ∧
    ∃ evaluation : Evaluation, ["[1]"] = evaluation.context.map Value.compactText ∧
      ∀ result ∈ evaluation.context, result.WellFormed ∧
        ∀ x, result.HasNumber x → (Value.number x).compactText ≠ "null" := by
  have hinput : Value.parse? "[null]" = some (.array [.null]) := by cbv
  have hprogram : WellFormed [.createArray [[.explode true]]] := by
    have hexplode : ∀ value, Op.HasLiteral value (.explode true) → value.WellFormed :=
      Op.forall_hasLiteral_iff.mpr ⟨fun value h => (by cases h), List.forall_mem_nil _⟩
    refine forall_hasLiteral_iff.mpr (List.forall_mem_singleton.mpr ?_)
    refine Op.forall_hasLiteral_iff.mpr ⟨fun value h => (by cases h), List.forall_mem_singleton.mpr ?_⟩
    exact forall_hasLiteral_iff.mpr (List.forall_mem_singleton.mpr hexplode)
  have hlines : executeText "[1]"
      "\x7b\"op\":\"create_array\",\"values\":[\x7b\"op\":\"explode\"\x7d]\x7d" = .ok ["[1]"] :=
    Traverse.toOption_eq_some_iff.mp (by decide +kernel)
  obtain ⟨values, -, -, runs, lines⟩ := wellFormed_throughout
  refine ⟨?_, ?_, hlines, ?_⟩
  · obtain ⟨value, hvalue⟩ : ∃ value, Value.parse? "\x7b\"a\":1,\"a\":2\x7d" = some value :=
      Option.isSome_iff_exists.mp (by decide +kernel)
    exact ⟨value, hvalue, values _ value hvalue⟩
  · obtain ⟨-, entered, -⟩ := runs _ [.array [.null]] {} hprogram
      (List.forall_mem_singleton.mpr (values _ _ hinput))
    have houter : Enters 302 [.createArray [[.explode true]]] [.array [.null]] [] 0
        ([] ++ .createArray ([] ++ [.explode true] :: []) :: []) [.array [.null]] := .outermost
    exact entered _ 1 [.explode true] _
      (houter.inside (Nat.zero_le _) rfl (.element [] [] [.explode true] [.array [.null]])
        (List.forall_mem_nil _))
  · obtain ⟨_, _, evaluation, -, -, -, hresults⟩ := lines _ _ _ hlines
    exact ⟨evaluation, hresults⟩

end Program

end JsonFilter
