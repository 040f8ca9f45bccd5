import JsonFilter.Proofs.Evaluation.Arity
import JsonFilter.Proofs.Evaluation.Leaves
import JsonFilter.Proofs.Host.Outcome
import JsonFilter.Proofs.Program.Literals
import JsonFilter.Proofs.Program.PipeText
import JsonFilter.Proofs.Value.RoundTrip

/-!
# Pipelines of texts

Two runs from text to text, one on each line of the other, do what one run of the pipe of their programs does.
The lines read back as the results, but for the signs of zeros, which an evaluation hands on and the text of
its results does not show.

* `Evaluation.lines`: the texts of what an evaluation leaves;
* `Program.lines_meaning_unsignZeros`: they do not depend on the signs of zeros in what a program runs on;
* `executeText_compactText`: a run on the text of a value;
* `executeText_pipe`: a run of a pipe is the runs of its programs one after another.
-/

namespace JsonFilter

namespace Evaluation

/-- The texts of the values that an evaluation leaves. -/
def lines (evaluation : Evaluation) : List String :=
  evaluation.context.map Value.compactText

theorem lines_join (before : Evaluation) (branches : List Evaluation) :
    (before.join branches).lines = (branches.map lines).flatten := by
  unfold lines join
  rw [List.map_flatMap, List.flatMap_def]

/-- The texts do not show the signs of zeros. -/
theorem lines_map_unsignZeros (evaluation : Evaluation) :
    (evaluation.map Value.unsignZeros).lines = evaluation.lines := by
  unfold lines map
  rw [List.map_map]
  exact List.map_congr_left fun value _ => value.compactText_unsignZeros

end Evaluation

namespace Program

/-- The texts of what a program leaves do not depend on the signs of zeros in the value that it runs on. -/
theorem lines_meaning_unsignZeros (program : Program) (value : Value) :
    Evaluation.lines <$> program.meaning [value.unsignZeros] =
      Evaluation.lines <$> program.meaning [value] := by
  have hlines : ∀ value : Value, Evaluation.lines <$> program.meaning [value] =
      Evaluation.lines <$> Evaluation.runAt program.nesting 0
        (program.mapData Value.unsignZeros id) [value.unsignZeros] := by
    intro value
    have hmap : Evaluation.runAt program.nesting 0 (program.mapData Value.unsignZeros id)
        [value.unsignZeros] = Evaluation.map Value.unsignZeros <$> program.meaning [value] :=
      Evaluation.runAt_mapLeaves _ _ program.nesting program 0 [value]
    rw [hmap, Functor.map_map]
    simp only [Evaluation.lines_map_unsignZeros]
  rw [hlines, hlines value, Value.unsignZeros_unsignZeros]

/-- What a program that comes from a text leaves of a value that comes from a text can be written. -/
theorem wellFormed_of_texts {input text : String} {program : Program} {value : Value}
    {evaluation : Evaluation} (hprogram : parse text = .ok program)
    (hinput : Value.parse? input = some value) (h : program.meaning [value] = .ok evaluation) :
    ∀ result ∈ evaluation.context, result.WellFormed :=
  wellFormed_of_meaning (wellFormed_of_parse hprogram)
    (List.forall_mem_singleton.mpr (Value.wellFormed_of_parse? hinput)) h

end Program

/-! ## Runs on texts -/

/-- With a program and an input, a run gives the texts of what the program leaves of the input. -/
theorem executeText_of_parse {input text : String} {program : Program} {value : Value}
    (hprogram : Program.parse text = .ok program) (hinput : Value.parse? input = some value) :
    executeText input text =
      Evaluation.lines <$> (program.meaning [value]).mapError .evaluation := by
  rw [executeText_eq, hprogram, hinput, ← Program.evaluate_eq_meaning_of_parse hprogram]
  dsimp only
  cases program.evaluate [value] {} <;> rfl

/-- A run on the text of a value gives the texts of what the program leaves of the value. -/
theorem executeText_compactText {text : String} {program : Program} {value : Value}
    (hprogram : Program.parse text = .ok program) (hvalue : value.WellFormed)
    (hnumbers : value.NumbersReadBack .compact) (hnesting : value.nesting ≤ Json.maxNesting) :
    executeText value.compactText text =
      Evaluation.lines <$> (program.meaning [value]).mapError .evaluation := by
  rw [executeText_of_parse hprogram (Value.parse?_compactText hvalue hnumbers hnesting)]
  rw [← Traverse.mapError_map, ← Traverse.mapError_map, program.lines_meaning_unsignZeros value]

/-- Where a run succeeds, its results nest no deeper than texts may, and their numbers read back, runs of
another program on its lines give together what one run of the pipe of the two programs gives: the same lines,
or the failure of the evaluation on the first line on which it fails. -/
theorem executeText_pipe {input source target : String} {first second : Program}
    (hsource : Program.parse source = .ok first) (hsourceWithin : Json.TextWithin 126 source)
    (htarget : Program.parse target = .ok second) (htargetWithin : Json.TextWithin 126 target)
    {lines : List String} (hlines : executeText input source = .ok lines)
    (hresults : ∀ value results, Value.parse? input = some value → execute value first = .ok results →
      ∀ result ∈ results, result.nesting ≤ 127 ∧ result.NumbersReadBack .compact) :
    executeText input (Program.pipeText source target) =
        List.flatten <$> lines.mapM (fun line => executeText line target) ∧
      ∀ line ∈ lines, ∀ error, executeText line target = .error error →
        ∃ cause, error = .evaluation cause := by
  cases hinput : Value.parse? input with
  | none =>
    rw [executeText_eq, hsource, hinput] at hlines
    cases hlines
  | some value =>
    rw [executeText_of_parse hsource hinput] at hlines
    obtain ⟨before, hbefore, rfl⟩ := Traverse.map_eq_ok_iff.mp hlines
    have hmeaning := Traverse.mapError_eq_ok_iff.mp hbefore
    -- Each line reads back as its result, but for signs of zeros that do not show in what comes out.
    have hline : ∀ result ∈ before.context, executeText result.compactText target =
        Evaluation.lines <$> (second.meaning [result]).mapError .evaluation := by
      intro result hresult
      have hrun : execute value first = .ok before.context := by
        rw [execute, Program.run, Program.evaluate_eq_meaning_of_parse hsource, hmeaning]
        rfl
      obtain ⟨hnesting, hnumbers⟩ := hresults value before.context hinput hrun result hresult
      exact executeText_compactText htarget
        (Program.wellFormed_of_texts hsource hinput hmeaning result hresult) hnumbers hnesting
    constructor
    · have hpipe := Program.parse_pipeText hsource hsourceWithin htarget htargetWithin
      -- The first program runs on one value, so the pipe takes its results one by one.
      have houtputs : before.outputs = before.context :=
        Evaluation.outputs_of_meaning (Nat.le_of_eq List.length_singleton) hmeaning
      have hruns : before.lines.mapM (fun line => executeText line target) =
          List.map Evaluation.lines <$>
            (before.context.mapM fun result => second.meaning [result]).mapError .evaluation := by
        rw [← Traverse.mapM_mapError]
        exact Traverse.mapM_map_of_eq hline
      rw [hruns, executeText_of_parse hpipe hinput, Program.meaning_singleton, Evaluation.step, hmeaning,
        Traverse.ok_bind, houtputs, Traverse.mapError_map, Functor.map_map, Functor.map_map]
      simp only [Evaluation.lines_join]
    · intro line hmem error herror
      obtain ⟨result, hresult, rfl⟩ := List.mem_map.mp hmem
      rw [hline result hresult] at herror
      cases hrun : second.meaning [result] with
      | error cause =>
        rw [hrun] at herror
        exact ⟨cause, (Except.error.inj herror).symm⟩
      | ok evaluation =>
        rw [hrun] at herror
        cases herror

/-- A number that is not whole, in an array and out of it again, at once or in two runs. -/
theorem executeText_pipe_explode :
    executeText "0.75" "\x7b\"op\":\"create_array\",\"values\":[[],[]]\x7d" = .ok ["[0.75,0.75]"] ∧
    executeText "0.75" (Program.pipeText "\x7b\"op\":\"create_array\",\"values\":[[],[]]\x7d"
        "\x7b\"op\":\"explode\"\x7d") = .ok ["0.75", "0.75"] := by
  have hread : Json.read? "\x7b\"op\":\"create_array\",\"values\":[[],[]]\x7d" =
      some (.object [("op", .string "create_array"), ("values", .array [.array [], .array []])]) := by cbv
  have hsource : Program.parse "\x7b\"op\":\"create_array\",\"values\":[[],[]]\x7d" =
      .ok [.createArray [[], []]] := Program.parse_eq_ok_iff.mpr ⟨_, hread, rfl⟩
  have htarget : Program.parse "\x7b\"op\":\"explode\"\x7d" = .ok [.explode true] := by cbv
  have htargetWithin : Json.TextWithin 126 "\x7b\"op\":\"explode\"\x7d" :=
    ⟨.object [("op", .string "explode")], by cbv, by decide⟩
  have hinput : Value.parse? "0.75" = some (.number (.ofBits 0x3fe8000000000000)) :=
    Value.eq_some_number_iff.mpr (by decide +kernel)
  have hlines : executeText "0.75" "\x7b\"op\":\"create_array\",\"values\":[[],[]]\x7d" =
      .ok ["[0.75,0.75]"] := Traverse.toOption_eq_some_iff.mp (by decide +kernel)
  have hnumber : Value.Style.compact.ReadsBack (.ofBits 0x3fe8000000000000) := by decide +kernel
  have hresults : ∀ value results, Value.parse? "0.75" = some value →
      execute value [.createArray [[], []]] = .ok results →
        ∀ result ∈ results, result.nesting ≤ 127 ∧ result.NumbersReadBack .compact := by
    intro value results hvalue hrun
    rw [hinput] at hvalue
    obtain rfl := Option.some.inj hvalue
    obtain rfl : [.array [.number (.ofBits 0x3fe8000000000000), .number (.ofBits 0x3fe8000000000000)]] =
        results := Except.ok.inj hrun
    refine List.forall_mem_singleton.mpr ⟨by decide, Value.forall_hasNumber_array_iff.mpr ?_⟩
    rintro item hitem x hx - -
    obtain rfl : item = .number (.ofBits 0x3fe8000000000000) := by simpa using hitem
    exact Value.hasNumber_number_iff.mp hx ▸ hnumber
  obtain ⟨hpipe, -⟩ :=
    executeText_pipe hsource ⟨_, hread, by decide⟩ htarget htargetWithin hlines hresults
  refine ⟨hlines, ?_⟩
  rw [hpipe]
  exact Traverse.toOption_eq_some_iff.mp (by decide +kernel)

end JsonFilter
