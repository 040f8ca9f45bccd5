import Std.Data.TreeMap

/-!
# Fields

Named fields kept in the order in which their names first appeared.  Inserting under a name that is
already there replaces the value and keeps the position, so a list built by insertion has pairwise
distinct names.
-/

namespace JsonFilter

universe u v

/-- A list of named fields, in order. -/
abbrev Fields (α : Type u) := List (String × α)

namespace Fields

variable {α : Type u} {β : Type v}

/-! ## Names, lookup and insertion -/

/-- The names of the fields, in order. -/
def keys (fields : Fields α) : List String :=
  fields.map Prod.fst

/-- The value of the first field with the given name. -/
def get? (key : String) : Fields α → Option α
  | [] => none
  | (name, value) :: rest => if name = key then some value else get? key rest

/-- Gives the named field a new value in its place, or appends it when the name is new. -/
def insert (key : String) (value : α) : Fields α → Fields α
  | [] => [(key, value)]
  | (name, old) :: rest =>
    if name = key then (name, value) :: rest else (name, old) :: insert key value rest

/-- Fields under construction: the names, the newest first, and a search tree of the values. -/
structure Builder (α : Type u) where
  names : List String
  values : Std.TreeMap String α

namespace Builder

/-- No fields yet. -/
def empty : Builder α :=
  ⟨[], ∅⟩

/-- Gives the named field a new value, and a last place if the name is new. -/
def insert (builder : Builder α) (key : String) (value : α) : Builder α where
  names := if builder.values.contains key then builder.names else key :: builder.names
  values := builder.values.insert key value

/-- The fields in the order of their names. -/
def toFields (builder : Builder α) : Fields α :=
  builder.names.reverse.filterMap fun name => builder.values[name]?.map fun value => (name, value)

end Builder

/-- Inserts the fields one after another: a repeated name keeps its first place and its last value. -/
def ofList (fields : List (String × α)) : Fields α :=
  (fields.foldl (fun builder field => builder.insert field.1 field.2) Builder.empty).toFields

/-- Applies a function to every value. -/
def mapValues (f : α → β) (fields : Fields α) : Fields β :=
  fields.map fun field => (field.1, f field.2)

/-! ## The names after an insertion -/

@[simp] theorem keys_nil : keys ([] : Fields α) = [] := rfl

@[simp] theorem keys_cons (key : String) (value : α) (rest : Fields α) :
    keys ((key, value) :: rest) = key :: keys rest := rfl

@[simp] theorem keys_append (left right : Fields α) :
    keys (left ++ right) = keys left ++ keys right := by
  simp [keys]

/-- Inserting under a known name keeps the names, under a new one appends it. -/
theorem keys_insert (key : String) (value : α) (fields : Fields α) :
    keys (insert key value fields) =
      if key ∈ keys fields then keys fields else keys fields ++ [key] := by
  induction fields with
  | nil => simp [insert]
  | cons field rest ih =>
    obtain ⟨name, old⟩ := field
    by_cases h : name = key
    · simp [insert, h]
    · have h' : key ≠ name := fun e => h e.symm
      simp only [insert, h, if_false, keys_cons, ih, List.mem_cons, h', false_or]
      split <;> simp

/-- Under a name that is not there, insertion appends. -/
theorem insert_of_not_mem {key : String} {fields : Fields α} (value : α)
    (h : key ∉ keys fields) : insert key value fields = fields ++ [(key, value)] := by
  induction fields with
  | nil => rfl
  | cons field rest ih =>
    obtain ⟨name, old⟩ := field
    simp only [keys_cons, List.mem_cons, not_or] at h
    simp [insert, Ne.symm h.1, ih h.2]

/-- Insertion keeps names distinct. -/
theorem nodup_keys_insert {fields : Fields α} (key : String) (value : α)
    (h : (keys fields).Nodup) : (keys (insert key value fields)).Nodup := by
  rw [keys_insert]
  split
  · exact h
  · next hn =>
    refine List.nodup_append.2 ⟨h, by simp, ?_⟩
    rintro a ha b hb rfl
    exact hn (by simpa using (List.mem_singleton.1 hb) ▸ ha)

/-- Insertions after some fields with distinct names leave distinct names. -/
theorem nodup_keys_foldl_insert (fields : List (String × α)) (built : Fields α)
    (h : (keys built).Nodup) :
    (keys (fields.foldl (fun built field => insert field.1 field.2 built) built)).Nodup := by
  induction fields generalizing built with
  | nil => exact h
  | cons field rest ih => exact ih _ (nodup_keys_insert _ _ h)

/-- Inserting fields whose names are new and distinct appends them all. -/
theorem foldl_insert_of_nodup (fields : List (String × α)) (built : Fields α)
    (h : (keys (built ++ fields)).Nodup) :
    fields.foldl (fun built field => insert field.1 field.2 built) built = built ++ fields := by
  induction fields generalizing built with
  | nil => simp
  | cons field rest ih =>
    obtain ⟨key, value⟩ := field
    have hk : key ∉ keys built := by
      intro hm
      rw [keys_append, keys_cons] at h
      exact (List.nodup_append.1 h).2.2 key hm key (by simp) rfl
    rw [List.foldl_cons, insert_of_not_mem value hk, ih]
    · simp
    · simpa using h

/-! ## Lookup after an insertion -/

/-- A lookup after an insertion finds the new value under its name and the old ones elsewhere. -/
theorem get?_insert (key name : String) (value : α) (fields : Fields α) :
    get? name (insert key value fields) = if key = name then some value else get? name fields := by
  induction fields with
  | nil => simp [insert, get?]
  | cons field rest ih =>
    obtain ⟨other, old⟩ := field
    by_cases h : other = key
    · subst h
      by_cases hn : other = name <;> simp [insert, get?, hn]
    · by_cases hn : other = name
      · subst hn
        simp [insert, get?, h, Ne.symm h]
      · simp [insert, get?, h, hn, ih]

/-- A name that is not there has no value. -/
theorem get?_eq_none_iff {key : String} {fields : Fields α} :
    get? key fields = none ↔ key ∉ keys fields := by
  induction fields with
  | nil => simp [get?]
  | cons field rest ih =>
    obtain ⟨name, value⟩ := field
    by_cases h : name = key
    · simp [get?, h]
    · simp [get?, h, ih, Ne.symm h]

/-- A name has a value exactly if it is there. -/
theorem isSome_get? (key : String) (fields : Fields α) :
    (get? key fields).isSome = decide (key ∈ keys fields) := by
  cases h : get? key fields with
  | none => simpa using (get?_eq_none_iff.1 h)
  | some value =>
    have : key ∈ keys fields := Decidable.byContradiction fun hn => by
      rw [get?_eq_none_iff.2 hn] at h
      cases h
    simpa using this

/-- A field does not matter to the lookup of other names. -/
theorem filterMap_get?_cons {key : String} {names : List String} (h : key ∉ names) (value : α)
    (rest : Fields α) :
    names.filterMap (fun name => (get? name ((key, value) :: rest)).map fun v => (name, v)) =
      names.filterMap fun name => (get? name rest).map fun v => (name, v) := by
  induction names with
  | nil => rfl
  | cons name names ih =>
    simp only [List.mem_cons, not_or] at h
    rw [List.filterMap_cons, List.filterMap_cons, ih h.2, get?, if_neg h.1]

/-- Fields with distinct names are their names with the values found under them. -/
theorem filterMap_get?_keys {fields : Fields α} (h : (keys fields).Nodup) :
    (keys fields).filterMap (fun name => (get? name fields).map fun value => (name, value)) =
      fields := by
  induction fields with
  | nil => rfl
  | cons field rest ih =>
    obtain ⟨key, value⟩ := field
    obtain ⟨hk, hr⟩ := List.nodup_cons.1 (by simpa using h)
    rw [keys_cons, List.filterMap_cons, filterMap_get?_cons hk, ih hr]
    simp [get?]

/-! ## Building fields -/

/-- What a builder holds: the names in order, and under each the value of the field. -/
structure Builder.Holds (builder : Builder α) (fields : Fields α) : Prop where
  names : builder.names.reverse = keys fields
  values : ∀ name, builder.values[name]? = get? name fields
  nodup : (keys fields).Nodup

theorem Builder.holds_empty : (Builder.empty : Builder α).Holds [] :=
  ⟨rfl, fun _ => Std.TreeMap.getElem?_emptyc, List.nodup_nil⟩

/-- Insertion into a builder is insertion into the fields that it holds. -/
theorem Builder.Holds.insert {builder : Builder α} {fields : Fields α} (h : builder.Holds fields)
    (key : String) (value : α) : (builder.insert key value).Holds (Fields.insert key value fields) where
  names := by
    have found : builder.values.contains key = decide (key ∈ keys fields) := by
      rw [Std.TreeMap.contains_eq_isSome_getElem?, h.values, isSome_get?]
    rw [keys_insert, Builder.insert, found]
    by_cases hk : key ∈ keys fields <;> simp [hk, h.names]
  values name := by
    rw [Builder.insert, Std.TreeMap.getElem?_insert, get?_insert, h.values]
    simp
  nodup := nodup_keys_insert key value h.nodup

theorem Builder.Holds.foldl {builder : Builder α} {built : Fields α} (h : builder.Holds built)
    (fields : List (String × α)) :
    (fields.foldl (fun builder field => builder.insert field.1 field.2) builder).Holds
      (fields.foldl (fun built field => Fields.insert field.1 field.2 built) built) := by
  induction fields generalizing builder built with
  | nil => exact h
  | cons field rest ih => exact ih (h.insert field.1 field.2)

/-- A builder gives the fields that it holds. -/
theorem Builder.Holds.toFields {builder : Builder α} {fields : Fields α} (h : builder.Holds fields) :
    builder.toFields = fields := by
  unfold Builder.toFields
  rw [h.names]
  simp only [h.values]
  exact filterMap_get?_keys h.nodup

/-- The fields of a list are those that its insertions leave, one after another. -/
theorem ofList_eq_foldl (fields : List (String × α)) :
    ofList fields = fields.foldl (fun built field => insert field.1 field.2 built) [] :=
  (Builder.holds_empty.foldl fields).toFields

/-- Fields built by insertion have pairwise distinct names. -/
theorem nodup_keys_ofList (fields : List (String × α)) : (keys (ofList fields)).Nodup := by
  rw [ofList_eq_foldl]
  exact nodup_keys_foldl_insert fields [] List.nodup_nil

/-- Fields with distinct names are their own list of insertions. -/
theorem ofList_of_nodup {fields : List (String × α)} (h : (keys fields).Nodup) :
    ofList fields = fields := by
  rw [ofList_eq_foldl]
  simpa using foldl_insert_of_nodup fields [] (by simpa using h)

end Fields

end JsonFilter
