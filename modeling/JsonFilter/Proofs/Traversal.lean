import JsonFilter.Traverse
import Mathlib.Data.List.Forall2

/-!
# Traversals and their results

A traversal of a list succeeds exactly if it does so at every item, and what is done with each result can
be done with the list of results.

* `Traverse.mapM_eq_ok_iff`: the results of a successful traversal, item by item;
* `Traverse.discard_mapM`, `Traverse.mapM_eq_error_iff`: whether a traversal fails, and where;
* `Traverse.toOption_bind`, `Traverse.toOption_mapM`: forgetting why a computation fails commutes with
  putting computations together.
-/

namespace JsonFilter.Traverse

universe u v w

/-! ## Results -/

section Results

variable {ε : Type u} {α : Type v} {β γ : Type w}

theorem map_eq_ok_iff {f : β → γ} {x : Except ε β} {c : γ} :
    f <$> x = .ok c ↔ ∃ b, x = .ok b ∧ f b = c := by
  constructor
  · intro h
    rcases x with e | b
    · cases h
    · exact ⟨b, rfl, Except.ok.inj h⟩
  · rintro ⟨b, rfl, rfl⟩
    rfl

theorem exists_map_eq_ok_iff {f : β → γ} {x : Except ε β} :
    (∃ c, f <$> x = .ok c) ↔ ∃ b, x = .ok b := by
  constructor
  · rintro ⟨c, h⟩
    obtain ⟨b, hb, -⟩ := map_eq_ok_iff.mp h
    exact ⟨b, hb⟩
  · rintro ⟨b, rfl⟩
    exact ⟨f b, rfl⟩

theorem map_eq_error_iff {f : β → γ} {x : Except ε β} {e : ε} : f <$> x = .error e ↔ x = .error e := by
  constructor
  · intro h
    rcases x with e' | b
    · exact congrArg Except.error (Except.error.inj h)
    · cases h
  · rintro rfl
    rfl

/-- A sequence fails where its first step does, or where the second does after a success of the first. -/
theorem bind_eq_error_iff {x : Except ε β} {f : β → Except ε γ} {e : ε} :
    x >>= f = .error e ↔ x = .error e ∨ ∃ b, x = .ok b ∧ f b = .error e := by
  cases x with
  | error e' => simp [error_bind]
  | ok b => simp [ok_bind]

theorem exists_eq_error_iff {x : Except ε β} : (∃ e, x = .error e) ↔ ∀ b, x ≠ .ok b := by
  cases x <;> simp

/-- A traversal gives some results exactly if each item gives its result. -/
theorem mapM_eq_ok_iff {f : α → Except ε β} {items : List α} {results : List β} :
    items.mapM f = .ok results ↔
      List.Forall₂ (fun item result => f item = .ok result) items results := by
  induction items generalizing results with
  | nil =>
    rw [List.forall₂_nil_left_iff]
    constructor
    · intro h
      exact (Except.ok.inj h).symm
    · rintro rfl
      rfl
  | cons item rest ih =>
    rw [List.mapM_cons, List.forall₂_cons_left_iff, bind_eq_ok_iff]
    constructor
    · rintro ⟨first, hfirst, h⟩
      obtain ⟨others, hothers, h⟩ := bind_eq_ok_iff.mp h
      exact ⟨first, others, hfirst, ih.mp hothers, (Except.ok.inj h).symm⟩
    · rintro ⟨first, others, hfirst, hothers, rfl⟩
      exact ⟨first, hfirst, bind_eq_ok_iff.mpr ⟨others, ih.mpr hothers, rfl⟩⟩

/-- If each item gives a result, then a list of items gives the list of results. -/
theorem mapM_eq_ok_map {f : α → Except ε β} {g : α → β} {items : List α}
    (h : ∀ item ∈ items, f item = .ok (g item)) : items.mapM f = .ok (items.map g) := by
  rw [mapM_eq_ok_iff, List.forall₂_map_right_iff, List.forall₂_same]
  exact h

/-- If a result of each item gives one of another item, then the results of a list give those of the other
list. -/
theorem mapM_map_eq_ok {α' : Type v} {f : α → Except ε β} {f' : α' → Except ε γ} {h : α → α'} {g : β → γ}
    {items : List α} (hitems : ∀ item ∈ items, ∀ result, f item = .ok result → f' (h item) = .ok (g result))
    {results : List β} (hresults : items.mapM f = .ok results) :
    (items.map h).mapM f' = .ok (results.map g) := by
  induction items generalizing results with
  | nil =>
    obtain rfl := Except.ok.inj hresults
    rfl
  | cons item rest ih =>
    obtain ⟨hitem, hrest⟩ := List.forall_mem_cons.mp hitems
    rw [List.mapM_cons] at hresults
    obtain ⟨first, hfirst, hresults⟩ := bind_eq_ok_iff.mp hresults
    obtain ⟨others, hothers, hresults⟩ := bind_eq_ok_iff.mp hresults
    obtain rfl := Except.ok.inj hresults
    rw [List.map_cons, List.mapM_cons, hitem first hfirst, ih hrest hothers]
    rfl

/-- Each item of a successful traversal gives one of the results. -/
theorem exists_mem_of_mapM {f : α → Except ε β} {items : List α} {results : List β}
    (h : items.mapM f = .ok results) {item : α} (hitem : item ∈ items) :
    ∃ result ∈ results, f item = .ok result := by
  have hresults := mapM_eq_ok_iff.mp h
  clear h
  induction hresults with
  | nil => cases hitem
  | cons hfirst _ ih =>
    rcases List.mem_cons.mp hitem with rfl | hitem
    · exact ⟨_, List.mem_cons_self, hfirst⟩
    · obtain ⟨result, hmem, hresult⟩ := ih hitem
      exact ⟨result, List.mem_cons_of_mem _ hmem, hresult⟩

/-- A traversal of a list is one of what stands in front of an item, of the item, and of what stands behind it. -/
theorem mapM_middle_eq_ok_iff {f : α → Except ε β} {before : List α} {item : α} {after : List α}
    {results : List β} :
    (before ++ item :: after).mapM f = .ok results ↔
      ∃ first result last, before.mapM f = .ok first ∧ f item = .ok result ∧ after.mapM f = .ok last ∧
        results = first ++ result :: last := by
  rw [List.mapM_append, List.mapM_cons]
  constructor
  · intro h
    obtain ⟨first, hfirst, h⟩ := bind_eq_ok_iff.mp h
    obtain ⟨others, hothers, h⟩ := bind_eq_ok_iff.mp h
    obtain ⟨result, hresult, hothers⟩ := bind_eq_ok_iff.mp hothers
    obtain ⟨last, hlast, hothers⟩ := bind_eq_ok_iff.mp hothers
    obtain rfl := Except.ok.inj hothers
    exact ⟨first, result, last, hfirst, hresult, hlast, (Except.ok.inj h).symm⟩
  · rintro ⟨first, result, last, hfirst, hresult, hlast, rfl⟩
    rw [hfirst, hresult, hlast]
    rfl

/-- A fold succeeds if each item can be added to whatever has been built. -/
theorem exists_foldlM {step : β → α → Except ε β} {items : List α}
    (h : ∀ item ∈ items, ∀ built, ∃ next, step built item = .ok next) (start : β) :
    ∃ result, items.foldlM step start = .ok result := by
  induction items generalizing start with
  | nil => exact ⟨start, rfl⟩
  | cons item rest ih =>
    obtain ⟨next, hnext⟩ := h item List.mem_cons_self start
    rw [List.foldlM_cons, hnext, ok_bind]
    exact ih (fun other hother => h other (List.mem_cons_of_mem _ hother)) next

end Results

/-! ## Forgetting the result -/

section Discard

variable {ε : Type u} {α : Type v} {β γ : Type w}

theorem discard_eq_ok_iff {x : Except ε β} : discard x = .ok ⟨⟩ ↔ ∃ b, x = .ok b := by
  cases x with
  | error e => exact ⟨nofun, nofun⟩
  | ok b => exact ⟨fun _ => ⟨b, rfl⟩, fun _ => rfl⟩

theorem discard_eq_error_iff {x : Except ε β} {e : ε} : discard x = .error e ↔ x = .error e := by
  cases x with
  | error e' => exact ⟨fun h => congrArg _ (Except.error.inj h), fun h => congrArg _ (Except.error.inj h)⟩
  | ok b => exact ⟨nofun, nofun⟩

/-- What cannot fail after a computation does not matter to its failure. -/
theorem discard_map (f : β → γ) (x : Except ε β) : discard (f <$> x) = discard x := by
  cases x <;> rfl

theorem discard_mapM (f : α → Except ε β) (items : List α) :
    discard (items.mapM f) = forM items fun item => discard (f item) := by
  induction items with
  | nil => rfl
  | cons item rest ih =>
    rw [List.mapM_cons, List.forM_cons, ← ih]
    cases f item with
    | error e => rfl
    | ok b => cases rest.mapM f <;> rfl

theorem forM_eq_ok_iff {f : α → Except ε PUnit} {items : List α} :
    forM items f = .ok ⟨⟩ ↔ ∀ item ∈ items, f item = .ok ⟨⟩ := by
  induction items with
  | nil => exact ⟨nofun, fun _ => rfl⟩
  | cons item rest ih =>
    rw [List.forM_cons, List.forall_mem_cons, bind_eq_ok_iff, ih]
    exact ⟨fun ⟨_, hitem, hrest⟩ => ⟨hitem, hrest⟩, fun ⟨hitem, hrest⟩ => ⟨_, hitem, hrest⟩⟩

theorem exists_mapM_iff {f : α → Except ε β} {items : List α} :
    (∃ results, items.mapM f = .ok results) ↔ ∀ item ∈ items, ∃ result, f item = .ok result := by
  simp only [← discard_eq_ok_iff, discard_mapM, forM_eq_ok_iff]

/-- A pass over a list fails for the first item at which it does. -/
theorem forM_eq_error_iff {f : α → Except ε PUnit} {items : List α} {e : ε} :
    forM items f = .error e ↔ ∃ before item after, items = before ++ item :: after ∧
      (∀ passed ∈ before, f passed = .ok ⟨⟩) ∧ f item = .error e := by
  constructor
  · intro h
    induction items with
    | nil => cases h
    | cons first rest ih =>
      rw [List.forM_cons] at h
      cases hfirst : f first with
      | error e' =>
        rw [hfirst, error_bind] at h
        exact ⟨[], first, rest, rfl, nofun, hfirst.trans h⟩
      | ok passed =>
        rw [hfirst, ok_bind] at h
        obtain ⟨before, item, after, rfl, hbefore, hitem⟩ := ih h
        exact ⟨first :: before, item, after, rfl, List.forall_mem_cons.mpr ⟨hfirst, hbefore⟩, hitem⟩
  · rintro ⟨before, item, after, rfl, hbefore, hitem⟩
    rw [List.forM_append, forM_eq_ok_iff.mpr hbefore, ok_bind, List.forM_cons, hitem, error_bind]

/-- A traversal fails for the first item at which it does. -/
theorem mapM_eq_error_iff {f : α → Except ε β} {items : List α} {e : ε} :
    items.mapM f = .error e ↔ ∃ before item after, items = before ++ item :: after ∧
      (∀ passed ∈ before, ∃ result, f passed = .ok result) ∧ f item = .error e := by
  rw [← discard_eq_error_iff, discard_mapM, forM_eq_error_iff]
  simp only [discard_eq_ok_iff, discard_eq_error_iff]

end Discard

/-- Changing the reason of a failure leaves what has not failed alone. -/
theorem mapError_map {ε ε' : Type u} {β γ : Type w} (g : ε → ε') (f : β → γ) (x : Except ε β) :
    (f <$> x).mapError g = f <$> x.mapError g := by
  cases x <;> rfl

theorem mapError_eq_ok_iff {ε ε' : Type u} {β : Type w} {g : ε → ε'} {x : Except ε β} {b : β} :
    x.mapError g = .ok b ↔ x = .ok b := by
  constructor
  · intro h
    cases x with
    | error e => cases h
    | ok a => exact congrArg Except.ok (Except.ok.inj h)
  · rintro rfl
    rfl

/-- A traversal with another reason for each failure fails for the other reason. -/
theorem mapM_mapError {ε' : Type u} {α : Type v} {ε : Type u} {β : Type w} (g : ε → ε')
    (f : α → Except ε β) (items : List α) :
    items.mapM (fun item => (f item).mapError g) = (items.mapM f).mapError g := by
  induction items with
  | nil => rfl
  | cons item rest ih =>
    rw [List.mapM_cons, List.mapM_cons, ih]
    cases f item with
    | error e => rfl
    | ok b => cases rest.mapM f <;> rfl

/-! ## Functions of the results -/

section Functions

variable {α : Type u} {β γ : Type v} {m : Type v → Type w} [Monad m] [LawfulMonad m]

/-- A function of each result is a function of the list of results. -/
theorem mapM_map (g : β → γ) (f : α → m β) (items : List α) :
    items.mapM (fun item => g <$> f item) = List.map g <$> items.mapM f := by
  induction items with
  | nil => simp
  | cons item rest ih =>
    simp only [List.mapM_cons, ih, bind_map_left, map_bind, map_pure, List.map_cons]

/-- If other items give other results one by one, then a list of other items gives the list of the other
results. -/
theorem mapM_map_of_eq {α' : Type u} {h : α → α'} {g : β → γ} {f' : α' → m γ} {f : α → m β}
    {items : List α} (heq : ∀ item ∈ items, f' (h item) = g <$> f item) :
    (items.map h).mapM f' = List.map g <$> items.mapM f := by
  rw [List.mapM_map, ← mapM_map]
  exact mapM_congr heq

/-- Lists whose items give the same one by one give the same. -/
theorem mapM_eq_of_forall₂ {α' : Type u} {f : α → m β} {f' : α' → m β} {items : List α} {items' : List α'}
    (h : List.Forall₂ (fun item item' => f item = f' item') items items') :
    items.mapM f = items'.mapM f' := by
  induction h with
  | nil => rfl
  | cons hitem _ ih => rw [List.mapM_cons, List.mapM_cons, hitem, ih]

end Functions

/-! ## Forgetting the reason of a failure -/

section ToOption

variable {ε : Type u} {α β : Type v}

theorem toOption_eq_some_iff {x : Except ε α} {a : α} : x.toOption = some a ↔ x = .ok a := by
  constructor
  · intro h
    rcases x with e | b
    · cases h
    · rw [Option.some.inj h]
  · rintro rfl
    rfl

theorem toOption_eq_toOption_iff {x y : Except ε α} :
    x.toOption = y.toOption ↔ ∀ a, x = .ok a ↔ y = .ok a := by
  rw [Option.ext_iff]
  simp only [toOption_eq_some_iff]

@[simp] theorem toOption_map (f : α → β) (x : Except ε α) :
    (f <$> x).toOption = f <$> x.toOption := by
  cases x <;> rfl

@[simp] theorem toOption_bind (x : Except ε α) (f : α → Except ε β) :
    (x >>= f).toOption = x.toOption >>= fun a => (f a).toOption := by
  cases x <;> rfl

@[simp] theorem toOption_mapM (f : α → Except ε β) (items : List α) :
    (items.mapM f).toOption = items.mapM fun item => (f item).toOption := by
  induction items with
  | nil => rfl
  | cons item rest ih =>
    simp only [List.mapM_cons, toOption_bind, ih]
    rfl

end ToOption

end JsonFilter.Traverse
