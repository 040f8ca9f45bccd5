import JsonFilter.Fields
import JsonFilter.Proofs.MixedRadix
import JsonFilter.Traverse
import Mathlib.Algebra.Group.Nat.Defs
import Mathlib.Data.List.Induction
import Mathlib.Data.List.Monad

/-!
# Repeated names and choices

Fields built by insertion have the distinct names of the list in the order in which they first occur, and
under each the value that comes last.

* `Fields.lastByName`: these fields, said without insertion;
* `Fields.ofList_eq_lastByName`: insertion builds them;
* `Fields.elim_get?_of_foldlM`: where names are distinct, a pass in any order reads each field by its name;
* `Fields.choices`, `Fields.getElem?_choices`: all choices of one candidate for each name, and where each stands.
-/

namespace JsonFilter.Fields

universe u

variable {α : Type u}

/-- A value found under a name is that of a field. -/
theorem mem_of_get? {key : String} {value : α} {fields : Fields α}
    (h : get? key fields = some value) : (key, value) ∈ fields := by
  induction fields with
  | nil => cases h
  | cons field rest ih =>
    obtain ⟨name, first⟩ := field
    rw [get?] at h
    split at h
    · next hname =>
      obtain rfl := Option.some.inj h
      rw [hname]
      exact List.mem_cons_self
    · exact List.mem_cons_of_mem _ (ih h)

/-- Fields in front of others are the first to be looked at. -/
theorem get?_append (key : String) (left right : Fields α) :
    get? key (left ++ right) = (get? key left).or (get? key right) := by
  induction left with
  | nil => rfl
  | cons field rest ih =>
    obtain ⟨name, value⟩ := field
    rw [List.cons_append, get?, get?]
    split
    · rfl
    · exact ih

theorem isSome_get?_reverse {key : String} {fields : Fields α} (h : key ∈ keys fields) :
    (get? key fields.reverse).isSome := by
  rw [isSome_get?, keys, List.map_reverse]
  exact decide_eq_true (List.mem_reverse.mpr h)

/-- The distinct names in the order in which they first occur, each with its last value. -/
def lastByName (fields : Fields α) : Fields α :=
  (keys fields).eraseDups.filterMap fun name =>
    (get? name fields.reverse).map fun value => (name, value)

/-- Each of these fields is one of the list. -/
theorem mem_of_mem_lastByName {field : String × α} {fields : Fields α}
    (h : field ∈ lastByName fields) : field ∈ fields := by
  obtain ⟨name, -, hname⟩ := List.mem_filterMap.mp h
  obtain ⟨value, hvalue, rfl⟩ := Option.map_eq_some_iff.mp hname
  exact List.mem_reverse.mp (mem_of_get? hvalue)

/-! ## Distinct names -/

theorem keys_zip (names : List String) (values : List α) :
    keys (names.zip values) = names.take values.length := by
  induction names generalizing values with
  | nil => simp
  | cons name rest ih =>
    cases values with
    | nil => rfl
    | cons value others => rw [List.zip_cons_cons, keys_cons, ih, List.length_cons, List.take_succ_cons]

/-- Where names are distinct, each field is the one that is found under its name. -/
theorem get?_of_mem {fields : Fields α} (hnames : (keys fields).Nodup) {key : String} {value : α}
    (h : (key, value) ∈ fields) : get? key fields = some value := by
  induction fields with
  | nil => cases h
  | cons field rest ih =>
    obtain ⟨name, first⟩ := field
    rw [keys_cons, List.nodup_cons] at hnames
    rcases List.mem_cons.mp h with heq | h
    · obtain ⟨rfl, rfl⟩ := Prod.mk.inj heq
      exact if_pos rfl
    · have hne : name ≠ key := by
        rintro rfl
        exact hnames.1 (List.mem_map_of_mem h)
      rw [get?, if_neg hne]
      exact ih hnames.2 h

theorem get?_eq_some_iff {fields : Fields α} (hnames : (keys fields).Nodup) {key : String} {value : α} :
    get? key fields = some value ↔ (key, value) ∈ fields :=
  ⟨mem_of_get?, get?_of_mem hnames⟩

/-- The order of fields with distinct names does not matter to a lookup. -/
theorem get?_perm {fields fields' : Fields α} (hnames : (keys fields).Nodup) (h : fields.Perm fields')
    (key : String) : get? key fields = get? key fields' := by
  have hnames' : (keys fields').Nodup := (h.map Prod.fst).nodup_iff.mp hnames
  ext value
  rw [get?_eq_some_iff hnames, get?_eq_some_iff hnames', h.mem_iff]

/-- Suppose that each step of a pass over some fields reads one part of a state from the field with a certain
name and leaves the part alone at all other fields.  Then the pass reads the part from the field of that name. -/
theorem elim_get?_of_foldlM {ε σ γ : Type} {step : σ → String × α → Except ε σ} {key : String}
    (part : σ → γ) (read : α → Except ε γ)
    (hstep : ∀ {state field next}, step state field = .ok next →
      if field.1 = key then read field.2 = .ok (part next) else part next = part state)
    {fields : Fields α} (hnames : (keys fields).Nodup) {start result : σ}
    (h : fields.foldlM step start = .ok result) :
    (get? key fields).elim (.ok (part start)) read = .ok (part result) := by
  induction fields generalizing start with
  | nil =>
    obtain rfl := Except.ok.inj h
    rfl
  | cons field rest ih =>
    obtain ⟨name, value⟩ := field
    rw [keys_cons, List.nodup_cons] at hnames
    rw [List.foldlM_cons] at h
    obtain ⟨next, hnext, h⟩ := Traverse.bind_eq_ok_iff.mp h
    have hrest := ih hnames.2 h
    have hpart := hstep hnext
    by_cases hname : name = key
    · -- No later field has the name, so the part stays as it is read here.
      subst hname
      rw [get?_eq_none_iff.mpr hnames.1] at hrest
      rw [get?, if_pos rfl, Option.elim_some, ← hrest]
      exact (if_pos rfl).mp hpart
    · rw [if_neg hname] at hpart
      rwa [get?, if_neg hname, ← hpart]

/-! ## Building by insertion -/

/-- The last field of a list is the last one to be inserted. -/
theorem ofList_concat (fields : Fields α) (field : String × α) :
    ofList (fields ++ [field]) = insert field.1 field.2 (ofList fields) := by
  simp only [ofList_eq_foldl, List.foldl_append, List.foldl_cons, List.foldl_nil]

/-- A last name counts only if it is new. -/
theorem eraseDups_concat (names : List String) (name : String) :
    (names ++ [name]).eraseDups =
      if name ∈ names then names.eraseDups else names.eraseDups ++ [name] := by
  rw [List.eraseDups_append]
  by_cases h : name ∈ names
  · rw [if_pos h]
    simp [List.removeAll, h]
  · rw [if_neg h]
    simp [List.removeAll, h, List.eraseDups_cons]

/-- Insertion leaves each name at the place where it first occurs. -/
theorem keys_ofList (fields : Fields α) : keys (ofList fields) = (keys fields).eraseDups := by
  induction fields using List.reverseRecOn with
  | nil => rfl
  | append_singleton fields field ih =>
    rw [ofList_concat, keys_insert, keys_append, ih]
    simp only [List.mem_eraseDups]
    exact (eraseDups_concat (keys fields) field.1).symm

/-- Insertion leaves under each name its last value. -/
theorem get?_ofList (name : String) (fields : Fields α) :
    get? name (ofList fields) = get? name fields.reverse := by
  induction fields using List.reverseRecOn with
  | nil => rfl
  | append_singleton fields field ih =>
    obtain ⟨key, value⟩ := field
    rw [ofList_concat, get?_insert, List.reverse_concat, get?, ih]

/-- Insertion builds the distinct names with their last values. -/
theorem ofList_eq_lastByName (fields : Fields α) : ofList fields = lastByName fields := by
  rw [← filterMap_get?_keys (nodup_keys_ofList fields), keys_ofList]
  simp only [get?_ofList]
  rfl

/-- What holds of every value holds of those that are left by insertion. -/
theorem forall_mem_ofList {P : α → Prop} {fields : Fields α} (h : ∀ field ∈ fields, P field.2) :
    ∀ field ∈ ofList fields, P field.2 := by
  intro field hfield
  rw [ofList_eq_lastByName] at hfield
  exact h field (mem_of_mem_lastByName hfield)

/-! ## Other values under the same names -/

section MapValues

variable {β : Type u}

@[simp] theorem mapValues_nil (f : α → β) : mapValues f [] = [] := rfl

@[simp] theorem mapValues_cons (f : α → β) (key : String) (value : α) (rest : Fields α) :
    mapValues f ((key, value) :: rest) = (key, f value) :: mapValues f rest := rfl

@[simp] theorem keys_mapValues (f : α → β) (fields : Fields α) :
    keys (mapValues f fields) = keys fields := by
  simp [keys, mapValues]

theorem mapValues_mapValues {γ : Type u} (f : α → β) (g : β → γ) (fields : Fields α) :
    mapValues g (mapValues f fields) = mapValues (g ∘ f) fields := by
  simp [mapValues]

theorem mapValues_inj_left {f g : α → β} {fields : Fields α} :
    mapValues f fields = mapValues g fields ↔ ∀ field ∈ fields, f field.2 = g field.2 := by
  unfold mapValues
  rw [List.map_inj_left]
  simp

theorem get?_mapValues (f : α → β) (key : String) (fields : Fields α) :
    get? key (mapValues f fields) = (get? key fields).map f := by
  induction fields with
  | nil => rfl
  | cons field rest ih =>
    obtain ⟨name, value⟩ := field
    rw [mapValues_cons, get?, get?, ih]
    split <;> rfl

theorem insert_mapValues (f : α → β) (key : String) (value : α) (fields : Fields α) :
    insert key (f value) (mapValues f fields) = mapValues f (insert key value fields) := by
  induction fields with
  | nil => rfl
  | cons field rest ih =>
    obtain ⟨name, old⟩ := field
    rw [mapValues_cons, insert, insert, ih]
    split <;> rfl

/-- Insertion does not look at the values. -/
theorem ofList_mapValues (f : α → β) (fields : Fields α) :
    ofList (mapValues f fields) = mapValues f (ofList fields) := by
  induction fields using List.reverseRecOn with
  | nil => rfl
  | append_singleton fields field ih =>
    have hconcat : mapValues f (fields ++ [field]) = mapValues f fields ++ [(field.1, f field.2)] := by
      simp [mapValues]
    rw [hconcat, ofList_concat, ofList_concat, ih]
    exact insert_mapValues f field.1 field.2 (ofList fields)

/-- A traversal of the values keeps the names. -/
theorem keys_of_mapM {ε : Type} {f : α → Except ε β} {fields : Fields α} {results : Fields β}
    (h : (fields.mapM fun field => (field.1, ·) <$> f field.2) = .ok results) :
    keys results = keys fields := by
  induction fields generalizing results with
  | nil =>
    obtain rfl := Except.ok.inj h
    rfl
  | cons field rest ih =>
    rw [List.mapM_cons] at h
    obtain ⟨first, hfirst, h⟩ := Traverse.bind_eq_ok_iff.mp h
    obtain ⟨others, hothers, h⟩ := Traverse.bind_eq_ok_iff.mp h
    obtain rfl := Except.ok.inj h
    cases hvalue : f field.2 with
    | error e =>
      rw [hvalue] at hfirst
      cases hfirst
    | ok value =>
      rw [hvalue] at hfirst
      obtain rfl := Except.ok.inj hfirst
      exact congrArg _ (ih hothers)

end MapValues

/-! ## Choices -/

/-- All choices of one candidate for each name, with the first name changing slowest. -/
def choices (candidates : Fields (List α)) : List (Fields α) :=
  candidates.mapM fun field => field.2.map fun value => (field.1, value)

/-- Every candidate of the first name goes with every choice for the others. -/
theorem choices_cons (key : String) (values : List α) (rest : Fields (List α)) :
    choices ((key, values) :: rest) =
      values.flatMap fun value => (choices rest).map fun fields => (key, value) :: fields := by
  rw [choices, List.mapM_cons]
  show List.flatMap _ (values.map fun value => (key, value)) = _
  rw [List.flatMap_map]
  exact congrArg (List.flatMap · values) (funext fun value => List.map_eq_flatMap.symm)

/-- There are as many choices as the product of the numbers of candidates. -/
theorem length_choices (candidates : Fields (List α)) :
    (choices candidates).length = (candidates.map fun field => field.2.length).prod := by
  induction candidates with
  | nil => rfl
  | cons field rest ih =>
    obtain ⟨key, values⟩ := field
    rw [choices_cons, List.map_cons, List.prod_cons, ← ih, List.length_flatMap]
    simp only [List.length_map]
    rw [List.map_const', List.sum_replicate_nat]

/-- The digits of the place at which a choice stands tell which candidate it takes for each name. -/
theorem getElem?_choices (values : String → List α) {names : List String} {n : Nat}
    (h : n < (names.map fun name => (values name).length).prod) :
    ∃ choice, (choices (names.map fun name => (name, values name)))[n]? = some choice ∧
      keys choice = names ∧
      List.Forall₂ (fun field digit => (values field.1)[digit]? = some field.2) choice
        (MixedRadix.digits (names.map fun name => (values name).length) n) := by
  induction names generalizing n with
  | nil =>
    obtain rfl := Nat.lt_one_iff.mp h
    exact ⟨[], rfl, rfl, .nil⟩
  | cons name rest ih =>
    rw [List.map_cons, List.prod_cons] at h
    obtain ⟨hsize, hdiv, hmod⟩ := MixedRadix.div_lt_and_mod_lt h
    obtain ⟨others, hothers, hkeys, hdigits⟩ := ih hmod
    have hvalue := List.getElem?_eq_getElem hdiv
    have hlength : (choices (rest.map fun name => (name, values name))).length =
        (rest.map fun name => (values name).length).prod := by
      rw [length_choices, List.map_map]
      rfl
    refine ⟨(name, _) :: others, ?_, ?_, .cons hvalue hdigits⟩
    · rw [List.map_cons, choices_cons, MixedRadix.getElem?_flatMap (fun _ => ?_) hsize, hvalue]
      · rw [Option.bind_some, List.getElem?_map, hothers]
        rfl
      · rw [List.length_map, hlength]
    · rw [keys_cons, hkeys]

end JsonFilter.Fields
