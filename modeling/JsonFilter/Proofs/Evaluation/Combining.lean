import JsonFilter.Proofs.Evaluation.Arity
import Mathlib.Algebra.BigOperators.Ring.List
import Mathlib.Algebra.Ring.Nat

/-!
# Objects that combine results

An object constructor takes some values for each of its names, and leaves one object for every combination of
them.  Where a name has several entries, all of them run, and the values of the last one are taken.  So the
objects are counted in mixed radix: the digits of the number of an object tell which of its values each name has.

* `Evaluation.taken`, `Evaluation.radices`: the values for a name, and how many there are for each name;
* `Evaluation.getElem?_assemble`: the objects, by their numbers;
* `Evaluation.context_assemble_overwritten`: what is written over does not matter;
* `Program.createObject_combines`: what object constructors leave, and when they fail.
-/

namespace JsonFilter

namespace Evaluation

/-! ## The values for a name -/

/-- What an object constructor takes for a name: the outputs of the last entry that has it. -/
def taken (parts : Fields Evaluation) (name : String) : List Value :=
  (Fields.get? name parts.reverse).elim [] outputs

/-- How many values there are for each name, in the order in which the names first occur. -/
def radices (parts : Fields Evaluation) : List Nat :=
  (Fields.keys parts).eraseDups.map fun name => (taken parts name).length

/-- The candidates are the values for each name, in the order in which the names first occur. -/
theorem candidates_eq_map (parts : Fields Evaluation) :
    candidates parts = (Fields.keys parts).eraseDups.map fun name => (name, taken parts name) := by
  rw [candidates, Fields.ofList_mapValues, Fields.ofList_eq_lastByName, Fields.lastByName, Fields.mapValues,
    List.map_filterMap, ← List.filterMap_eq_map]
  refine List.filterMap_congr fun name hname => ?_
  obtain ⟨last, hlast⟩ := Option.isSome_iff_exists.mp
    (Fields.isSome_get?_reverse (List.mem_eraseDups.mp hname))
  simp only [Function.comp_apply, taken, hlast]
  rfl

/-- A later entry of a name hides the values of an earlier one. -/
theorem taken_overwritten {before after : Fields Evaluation} {name : String}
    (h : name ∈ Fields.keys after) (first other : Evaluation) :
    taken (before ++ (name, first) :: after) = taken (before ++ (name, other) :: after) := by
  funext key
  simp only [taken, List.reverse_append, List.reverse_cons, Fields.get?_append, Fields.get?]
  by_cases hkey : name = key
  · subst hkey
    obtain ⟨last, hlast⟩ := Option.isSome_iff_exists.mp (Fields.isSome_get?_reverse h)
    rw [hlast]
    rfl
  · rw [if_neg hkey, if_neg hkey]

/-! ## The objects -/

theorem length_assemble (parts : Fields Evaluation) :
    (assemble parts).context.length = (radices parts).prod := by
  show ((combinations (candidates parts)).map Value.object).length = _
  rw [List.length_map, combinations_eq_choices, Fields.length_choices, candidates_eq_map, List.map_map]
  rfl

/-- The digits of the number of an object tell which value it has under each name. -/
theorem getElem?_assemble {parts : Fields Evaluation} {i : Nat} (h : i < (radices parts).prod) :
    ∃ fields, (assemble parts).context[i]? = some (.object fields) ∧
      Fields.keys fields = (Fields.keys parts).eraseDups ∧
      List.Forall₂ (fun field digit => (taken parts field.1)[digit]? = some field.2) fields
        (MixedRadix.digits (radices parts) i) := by
  obtain ⟨fields, hfields, hkeys, hdigits⟩ := Fields.getElem?_choices (taken parts) h
  refine ⟨fields, ?_, hkeys, hdigits⟩
  show ((combinations (candidates parts)).map Value.object)[i]? = _
  rw [combinations_eq_choices, candidates_eq_map, List.getElem?_map, hfields]
  rfl

/-- If there is no value for one name, then there is no object. -/
theorem context_assemble_of_taken_nil {parts : Fields Evaluation} {name : String}
    (hname : name ∈ Fields.keys parts) (h : taken parts name = []) : (assemble parts).context = [] := by
  have hradix : 0 ∈ radices parts :=
    List.mem_map.mpr ⟨name, List.mem_eraseDups.mpr hname, by rw [h, List.length_nil]⟩
  rw [← List.length_eq_zero_iff, length_assemble]
  exact List.prod_eq_zero hradix

/-- What a later entry writes over makes no difference to the objects. -/
theorem context_assemble_overwritten {before after : Fields Evaluation} {name : String}
    (h : name ∈ Fields.keys after) (first other : Evaluation) :
    (assemble (before ++ (name, first) :: after)).context =
      (assemble (before ++ (name, other) :: after)).context := by
  show List.map _ (combinations (candidates _)) = List.map _ (combinations (candidates _))
  rw [candidates_eq_map, candidates_eq_map, taken_overwritten h first other]
  simp only [Fields.keys_append, Fields.keys_cons]

end Evaluation

namespace Program

open Evaluation

variable {entries : Fields Program} {context : Context} {options : Options}

/-! ## Object constructors -/

/-- An object constructor assembles what the programs of its entries leave of the context. -/
theorem evaluate_createObject (hdepth : ∀ entry ∈ entries, nesting entry.2 < options.maxDepth)
    (context : Context) :
    evaluate [.createObject entries] context options =
      assemble <$> entries.mapM fun entry => (entry.1, ·) <$> evaluate entry.2 context options := by
  have hnesting : (Op.createObject entries).nesting ≤ options.maxDepth :=
    Op.nesting_le_iff.mpr (List.forall_mem_map.mpr hdepth)
  exact evaluate_singleton hnesting context

/-- The parts of an object constructor are the evaluations of its entries, under their names. -/
theorem mapM_entries_eq_ok_iff {parts : Fields Evaluation} :
    (entries.mapM fun entry => (entry.1, ·) <$> evaluate entry.2 context options) = .ok parts ↔
      List.Forall₂ (fun entry part =>
        part.1 = entry.1 ∧ evaluate entry.2 context options = .ok part.2) entries parts := by
  rw [Traverse.mapM_eq_ok_iff]
  have hpart : ∀ (entry : String × Program) (part : String × Evaluation),
      (entry.1, ·) <$> evaluate entry.2 context options = .ok part ↔
        part.1 = entry.1 ∧ evaluate entry.2 context options = .ok part.2 := by
    intro entry part
    rw [Traverse.map_eq_ok_iff]
    constructor
    · rintro ⟨result, hresult, rfl⟩
      exact ⟨rfl, hresult⟩
    · rintro ⟨hname, hresult⟩
      exact ⟨part.2, hresult, Prod.ext hname.symm rfl⟩
  simp only [hpart]

/-- An entry that is written over may be replaced by any other one that does not fail. -/
theorem evaluate_createObject_overwritten {before after : Fields Program} {name : String} {part other : Program}
    {result evaluation : Evaluation}
    (hdepth : ∀ entry ∈ before ++ (name, part) :: after, nesting entry.2 < options.maxDepth)
    (hname : name ∈ Fields.keys after) (hother : nesting other < options.maxDepth)
    (hresult : evaluate other context options = .ok result)
    (h : evaluate [.createObject (before ++ (name, part) :: after)] context options = .ok evaluation) :
    ∃ exploded, evaluate [.createObject (before ++ (name, other) :: after)] context options =
      .ok ⟨evaluation.context, exploded⟩ := by
  rw [evaluate_createObject hdepth] at h
  obtain ⟨parts, hparts, rfl⟩ := Traverse.map_eq_ok_iff.mp h
  obtain ⟨first, old, last, hfirst, hold, hlast, rfl⟩ := Traverse.mapM_middle_eq_ok_iff.mp hparts
  obtain ⟨overwritten, -, rfl⟩ := Traverse.map_eq_ok_iff.mp hold
  have hnew : (name, ·) <$> evaluate other context options = .ok (name, result) :=
    Traverse.map_eq_ok_iff.mpr ⟨result, hresult, rfl⟩
  have hparts' : ((before ++ (name, other) :: after).mapM fun entry =>
      (entry.1, ·) <$> evaluate entry.2 context options) = .ok (first ++ (name, result) :: last) :=
    Traverse.mapM_middle_eq_ok_iff.mpr ⟨first, (name, result), last, hfirst, hnew, hlast, rfl⟩
  obtain ⟨hbefore, hrest⟩ := List.forall_mem_append.mp hdepth
  have hdepth' : ∀ entry ∈ before ++ (name, other) :: after, nesting entry.2 < options.maxDepth :=
    List.forall_mem_append.mpr ⟨hbefore, List.forall_mem_cons.mpr ⟨hother, (List.forall_mem_cons.mp hrest).2⟩⟩
  rw [← Fields.keys_of_mapM (f := fun part => evaluate part context options) hlast] at hname
  refine ⟨(assemble (first ++ (name, result) :: last)).exploded, ?_⟩
  rw [evaluate_createObject hdepth', hparts', context_assemble_overwritten hname overwritten result]
  rfl

/-- An object constructor combines what its entries leave of one context: it leaves one object for every choice
of a value for each name, and the number of an object is written with the places of its values as digits, in mixed
radix with the first name most significant.  All entries run, and the first failure among them is the failure of
the whole, but only the values of the last entry of a name count. -/
theorem createObject_combines (entries : Fields Program) (context : Context) (options : Options)
    (hdepth : ∀ entry ∈ entries, nesting entry.2 < options.maxDepth) :
    ((∀ entry ∈ entries, ∃ result, evaluate entry.2 context options = .ok result) →
      ∃ parts objects,
        List.Forall₂ (fun entry part =>
          part.1 = entry.1 ∧ evaluate entry.2 context options = .ok part.2) entries parts ∧
        evaluate [.createObject entries] context options =
          .ok ⟨objects, parts.any fun part => part.2.exploded⟩ ∧
        objects.length = (radices parts).prod ∧
        (∀ i < (radices parts).prod, ∃ fields digits,
          objects[i]? = some (.object fields) ∧
          Fields.keys fields = (Fields.keys entries).eraseDups ∧
          List.Forall₂ (fun field digit => (taken parts field.1)[digit]? = some field.2) fields digits ∧
          List.Forall₂ (· < ·) digits (radices parts) ∧
          MixedRadix.value (radices parts) digits = i) ∧
        (∀ name ∈ Fields.keys entries, taken parts name = [] → objects = []) ∧
        (entries = [] → objects = [.object []])) ∧
    (∀ e, evaluate [.createObject entries] context options = .error e ↔
      ∃ before entry after, entries = before ++ entry :: after ∧
        (∀ passed ∈ before, ∃ result, evaluate passed.2 context options = .ok result) ∧
        evaluate entry.2 context options = .error e) ∧
    (∀ before name part after, entries = before ++ (name, part) :: after → name ∈ Fields.keys after →
      ∀ other result, nesting other < options.maxDepth → evaluate other context options = .ok result →
        ∀ evaluation, evaluate [.createObject entries] context options = .ok evaluation →
          ∃ exploded, evaluate [.createObject (before ++ (name, other) :: after)] context options =
            .ok ⟨evaluation.context, exploded⟩) := by
  have hobject := evaluate_createObject hdepth context
  refine ⟨?_, ?_, ?_⟩
  · intro hentries
    obtain ⟨parts, hparts⟩ : ∃ parts, (entries.mapM fun entry =>
        (entry.1, ·) <$> evaluate entry.2 context options) = .ok parts :=
      Traverse.exists_mapM_iff.mpr fun entry hentry => Traverse.exists_map_eq_ok_iff.mpr (hentries entry hentry)
    have hforall := mapM_entries_eq_ok_iff.mp hparts
    have hkeys := Fields.keys_of_mapM (f := fun part => evaluate part context options) hparts
    refine ⟨parts, (assemble parts).context, hforall, ?_, length_assemble parts, ?_, ?_, ?_⟩
    · rw [hobject, hparts]
      rfl
    · intro i hi
      obtain ⟨fields, hfields, hnames, hdigits⟩ := getElem?_assemble hi
      rw [hkeys] at hnames
      exact ⟨fields, MixedRadix.digits (radices parts) i, hfields, hnames, hdigits, MixedRadix.digits_lt hi,
        MixedRadix.value_digits hi⟩
    · intro name hname htaken
      rw [← hkeys] at hname
      exact context_assemble_of_taken_nil hname htaken
    · rintro rfl
      obtain rfl := List.forall₂_nil_left_iff.mp hforall
      rfl
  · intro e
    rw [hobject, Traverse.map_eq_error_iff, Traverse.mapM_eq_error_iff]
    simp only [Traverse.exists_map_eq_ok_iff, Traverse.map_eq_error_iff]
  · rintro before name part after rfl hname other result hother hresult evaluation hevaluation
    exact evaluate_createObject_overwritten hdepth hname hother hresult hevaluation

/-- Two values for each of two names make four objects, a failure of an entry that is written over is one of the
whole, and if it does not fail, then it does not matter what it leaves. -/
theorem createObject_combines_explode :
    (∃ objects fields,
      evaluate [.createObject [("a", [.explode true]), ("b", [.explode true])]]
          [.array [.null, .bool true]] {} = .ok ⟨objects, true⟩ ∧
        objects.length = 4 ∧ objects[1]? = some (.object fields) ∧ Fields.keys fields = ["a", "b"]) ∧
    evaluate [.createObject [("a", [.pick "b" true]), ("a", [])]] [.null] {} =
      .error (.typeMismatch (.pick "b") .null) ∧
    ∃ exploded, evaluate [.createObject [("a", [.explode false]), ("a", [])]] [.null] {} =
      .ok ⟨[.object [("a", .null)]], exploded⟩ := by
  refine ⟨?_, ?_, ?_⟩
  · obtain ⟨hobjects, -, -⟩ := createObject_combines
      [("a", [.explode true]), ("b", [.explode true])] [.array [.null, .bool true]] {} (by decide)
    have hmembers : ∀ entry ∈ [("a", [Op.explode true]), ("b", [.explode true])], ∃ result,
        evaluate entry.2 [.array [.null, .bool true]] {} = .ok result := by
      refine List.forall_mem_cons.mpr ⟨⟨_, rfl⟩, List.forall_mem_singleton.mpr ⟨_, rfl⟩⟩
    obtain ⟨parts, objects, hparts, hevaluate, hlength, hplaces, -, -⟩ := hobjects hmembers
    obtain ⟨⟨_, first⟩, _, ⟨rfl, hfirst⟩, hothers, rfl⟩ := List.forall₂_cons_left_iff.mp hparts
    obtain ⟨⟨_, second⟩, _, ⟨rfl, hsecond⟩, hnone, rfl⟩ := List.forall₂_cons_left_iff.mp hothers
    obtain rfl := List.forall₂_nil_left_iff.mp hnone
    obtain rfl : ⟨[.null, .bool true], true⟩ = first := Except.ok.inj hfirst
    obtain rfl : ⟨[.null, .bool true], true⟩ = second := Except.ok.inj hsecond
    obtain ⟨fields, -, hfields, hkeys, -⟩ := hplaces 1 (by decide)
    exact ⟨objects, fields, hevaluate, hlength, hfields, hkeys⟩
  · refine ((createObject_combines _ _ _ (by decide)).2.1 _).mpr ?_
    exact ⟨[], ("a", [.pick "b" true]), [("a", [])], rfl, nofun, rfl⟩
  · exact (createObject_combines [("a", []), ("a", [])] [.null] {} (by decide)).2.2 [] "a" [] [("a", [])] rfl
      (by decide) [.explode false] ⟨[], true⟩ (by decide) rfl ⟨[.object [("a", .null)]], false⟩ rfl

end Program

end JsonFilter
