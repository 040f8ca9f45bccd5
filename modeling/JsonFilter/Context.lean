import JsonFilter.Value.Basic

/-!
# Contexts

The values in flight at one point of a filter, in order.  The length of a context is the number of
results of a branch: none, one, or a stream of several.
-/

namespace JsonFilter

/-- The values in flight, in order. -/
abbrev Context := List Value

namespace Context

/-- Folds a context into at most one value: a single value is left as it is, and several are gathered
into an array. -/
def collapse : Context → Option Value
  | [] => none
  | [v] => some v
  | context => some (.array context)

/-- Equality of contexts, value by value. -/
def agrees (context other : Context) : Bool :=
  Value.beqItems context other

theorem collapse_nil : collapse [] = none := rfl

theorem collapse_singleton (v : Value) : collapse [v] = some v := rfl

/-- Several values are gathered into one array. -/
theorem collapse_of_two_le {context : Context} (h : 2 ≤ context.length) :
    collapse context = some (.array context) := by
  match context, h with
  | _ :: _ :: _, _ => rfl

end Context

end JsonFilter
