import JsonFilter.Program.Parts
import JsonFilter.Proofs.Evaluation.Steps

/-!
# Programs one after another

Two lists of records one after the other are decoded one after the other, and so are programs evaluated.  Of two
failures the first one is reported.  What has exploded stays exploded, whatever follows, so nothing is lost if
programs are evaluated one by one and not as a whole.

* `Program.ofJson_array_append`, `Program.evaluate_append`: decoding and evaluation of what stands one after the
  other;
* `Program.applyAll`, `Program.applyAll_eq`: programs that are applied one by one, as a host does it;
* `Program.sequence_laws`: when both succeed, with what result, and which failure is reported.
-/

namespace JsonFilter.Program

/-! ## Decoding -/

/-- Lists of records one after the other are decoded one after the other. -/
theorem ofJson_array_append (records others : List Json) :
    ofJson (.array (records ++ others)) =
      ofJson (.array records) >>= fun first => (first ++ ·) <$> ofJson (.array others) := by
  rw [ofJson_array, ofJson_array, ofJson_array, List.mapM_append]
  cases records.mapM (decodeRecord ofJson) with
  | error e => rfl
  | ok first =>
    cases others.mapM (decodeRecord ofJson) with
    | error e => rfl
    | ok second =>
      show Except.ok (first ++ second).flatten = Except.ok (first.flatten ++ second.flatten)
      rw [List.flatten_append]

/-- A record in front of others is decoded first. -/
theorem ofJson_array_cons (record : Json) (rest : List Json) :
    ofJson (.array (record :: rest)) =
      decodeRecord ofJson record >>= fun ops => (ops ++ ·) <$> ofJson (.array rest) := by
  rw [ofJson_array, ofJson_array, List.mapM_cons]
  cases decodeRecord ofJson record with
  | error e => rfl
  | ok ops => cases rest.mapM (decodeRecord ofJson) <;> rfl

theorem ofJson_array_append_eq_ok_iff {records others : List Json} {program : Program} :
    ofJson (.array (records ++ others)) = .ok program ↔
      ∃ first second, ofJson (.array records) = .ok first ∧ ofJson (.array others) = .ok second ∧
        program = first ++ second := by
  rw [ofJson_array_append, Traverse.bind_eq_ok_iff]
  refine exists_congr fun first => ?_
  rw [Traverse.map_eq_ok_iff]
  constructor
  · rintro ⟨hfirst, second, hsecond, rfl⟩
    exact ⟨second, hfirst, hsecond, rfl⟩
  · rintro ⟨second, hfirst, hsecond, rfl⟩
    exact ⟨hfirst, second, hsecond, rfl⟩

theorem ofJson_array_append_eq_error_iff {records others : List Json} {e : DecodeError} :
    ofJson (.array (records ++ others)) = .error e ↔ ofJson (.array records) = .error e ∨
      (∃ first, ofJson (.array records) = .ok first) ∧ ofJson (.array others) = .error e := by
  rw [ofJson_array_append, Traverse.bind_eq_error_iff]
  simp only [Traverse.map_eq_error_iff, exists_and_right]

/-! ## Evaluation -/

variable {first second : Program} {context : Context} {options : Options}

theorem evaluate_append_eq_ok_iff {evaluation : Evaluation} :
    evaluate (first ++ second) context options = .ok evaluation ↔
      ∃ before last, first.evaluate context options = .ok before ∧
        second.evaluate before.context options = .ok last ∧
        evaluation = ⟨last.context, before.exploded || last.exploded⟩ := by
  rw [evaluate_append, Traverse.bind_eq_ok_iff]
  refine exists_congr fun before => ?_
  rw [Traverse.map_eq_ok_iff]
  constructor
  · rintro ⟨hbefore, last, hlast, rfl⟩
    exact ⟨last, hbefore, hlast, rfl⟩
  · rintro ⟨last, hbefore, hlast, rfl⟩
    exact ⟨hbefore, last, hlast, rfl⟩

theorem evaluate_append_eq_error_iff {e : EvalError} :
    evaluate (first ++ second) context options = .error e ↔
      first.evaluate context options = .error e ∨
        ∃ before, first.evaluate context options = .ok before ∧
          second.evaluate before.context options = .error e := by
  rw [evaluate_append, Traverse.bind_eq_error_iff]
  simp only [Traverse.map_eq_error_iff]

/-! ## Programs applied one by one -/

/-- Applies programs one after another, each to the context that the one before it leaves; only contexts are
handed on, and the first failure is the last thing that happens. -/
def applyAll (programs : List Program) (context : Context) (options : Options) : Except EvalError Context :=
  programs.foldlM (fun context program => Evaluation.context <$> program.evaluate context options) context

/-- Programs that are applied one by one leave what the program of all their operations leaves. -/
theorem applyAll_eq (programs : List Program) (context : Context) (options : Options) :
    applyAll programs context options =
      Evaluation.context <$> evaluate programs.flatten context options := by
  -- Every application starts without an explosion; what the earlier ones report does not touch the context.
  induction programs generalizing context with
  | nil => rfl
  | cons program rest ih =>
    rw [applyAll, List.foldlM_cons, List.flatten_cons, evaluate_append]
    cases program.evaluate context options with
    | error e => rfl
    | ok before =>
      show applyAll rest before.context options = _
      rw [ih]
      show _ = Evaluation.context <$> (before.andThen <$> evaluate rest.flatten before.context options)
      rw [Functor.map_map]
      rfl

/-! ## The laws of sequences -/

/-- Lists of records one after the other are decoded exactly if both are, to the one program in front of the other,
and otherwise they are refused as the first of them is that is refused.  Programs one after the other are evaluated
exactly if the second can be evaluated on what the first leaves; they leave what the second leaves, something has
exploded if it did in either, and the first failure is that of the whole.  So decoded programs that are applied one
by one end as the program of both lists does, in the same context or with the same failure. -/
theorem sequence_laws (records others : List Json) (options : Options) :
    (∀ program, ofJson (.array (records ++ others)) = .ok program ↔
      ∃ first second, ofJson (.array records) = .ok first ∧ ofJson (.array others) = .ok second ∧
        program = first ++ second) ∧
    (∀ e, ofJson (.array (records ++ others)) = .error e ↔ ofJson (.array records) = .error e ∨
      (∃ first, ofJson (.array records) = .ok first) ∧ ofJson (.array others) = .error e) ∧
    (∀ first second context evaluation,
      evaluate (first ++ second) context options = .ok evaluation ↔
        ∃ before last, first.evaluate context options = .ok before ∧
          second.evaluate before.context options = .ok last ∧
          evaluation = ⟨last.context, before.exploded || last.exploded⟩) ∧
    (∀ first second context e,
      evaluate (first ++ second) context options = .error e ↔
        first.evaluate context options = .error e ∨
          ∃ before, first.evaluate context options = .ok before ∧
            second.evaluate before.context options = .error e) ∧
    ∀ first second, ofJson (.array records) = .ok first → ofJson (.array others) = .ok second →
      ∃ program, ofJson (.array (records ++ others)) = .ok program ∧
        ∀ context, applyAll [first, second] context options = applyAll [program] context options := by
  refine ⟨fun program => ofJson_array_append_eq_ok_iff, fun e => ofJson_array_append_eq_error_iff,
    fun first second context evaluation => evaluate_append_eq_ok_iff,
    fun first second context e => evaluate_append_eq_error_iff, ?_⟩
  intro first second hfirst hsecond
  refine ⟨first ++ second, ofJson_array_append_eq_ok_iff.mpr ⟨first, second, hfirst, hsecond, rfl⟩, ?_⟩
  intro context
  have hflatten : [first, second].flatten = [first ++ second].flatten := by simp
  rw [applyAll_eq, applyAll_eq, hflatten]

/-- An explosion in front of a literal: the literal takes its values away and leaves its report alone. -/
theorem sequence_laws_literal :
    let records : List Json := [.object [("op", .string "explode")]]
    let others : List Json := [.object [("op", .string "literal"), ("value", .bool true)]]
    ofJson (.array (records ++ others)) = .ok [.explode true, .literal (.bool true)] ∧
      evaluate ([.explode true] ++ [.literal (.bool true)]) [.array [.null, .null]] {} =
        .ok ⟨[.bool true], true⟩ ∧
      evaluate ([.explode true] ++ [.literal (.bool true)]) [.null] {} =
        .error (.typeMismatch .iterate .null) ∧
      ∃ program, ofJson (.array (records ++ others)) = .ok program ∧
        ∀ context, applyAll [[.explode true], [.literal (.bool true)]] context {} =
          applyAll [program] context {} := by
  intro records others
  have hrecords : ofJson (.array records) = .ok [.explode true] := rfl
  have hothers : ofJson (.array others) = .ok [.literal (.bool true)] := rfl
  obtain ⟨hdecoded, -, hsuccess, hfailure, happlied⟩ := sequence_laws records others {}
  refine ⟨(hdecoded _).mpr ⟨_, _, hrecords, hothers, rfl⟩, ?_, ?_, happlied _ _ hrecords hothers⟩
  · exact (hsuccess _ _ _ _).mpr ⟨⟨[.null, .null], true⟩, ⟨[.bool true], false⟩, rfl, rfl, rfl⟩
  · exact (hfailure _ _ _ _).mpr (.inl rfl)

end JsonFilter.Program
