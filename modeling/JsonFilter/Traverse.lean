/-!
# Traversals that may fail

What a successful `mapM` or `foldlM` over a list says of its elements.
-/

namespace JsonFilter.Traverse

universe u v w

variable {ε : Type u} {α : Type v} {β : Type w}

theorem ok_bind {γ : Type w} (b : β) (f : β → Except ε γ) : (.ok b : Except ε β) >>= f = f b := rfl

theorem error_bind {γ : Type w} (e : ε) (f : β → Except ε γ) :
    (.error e : Except ε β) >>= f = .error e := rfl

/-- A sequence succeeds when both of its steps do. -/
theorem bind_eq_ok_iff {γ : Type w} {x : Except ε β} {f : β → Except ε γ} {c : γ} :
    x >>= f = .ok c ↔ ∃ b, x = .ok b ∧ f b = .ok c := by
  cases x with
  | error e => simp [error_bind]
  | ok b => simp [ok_bind]

/-- What has not failed has no failure to change. -/
theorem mapError_ok {ε' : Type u} (f : ε → ε') (b : β) :
    (.ok b : Except ε β).mapError f = .ok b := rfl

/-- A traversal depends on its function only through the elements of the list. -/
theorem mapM_congr {m : Type w → Type u} [Monad m] [LawfulMonad m] {f g : α → m β} {items : List α}
    (h : ∀ item ∈ items, f item = g item) : items.mapM f = items.mapM g := by
  induction items with
  | nil => rfl
  | cons item rest ih =>
    rw [List.mapM_cons, List.mapM_cons, h item (by simp), ih fun i hi => h i (by simp [hi])]

/-- Every result of a traversal is the result of an element. -/
theorem exists_of_mem_mapM {f : α → Except ε β} {items : List α} {results : List β}
    (h : items.mapM f = .ok results) {result : β} (hr : result ∈ results) :
    ∃ item ∈ items, f item = .ok result := by
  induction items generalizing results with
  | nil =>
    obtain rfl : [] = results := by simpa [pure, Except.pure] using h
    simp at hr
  | cons item rest ih =>
    rw [List.mapM_cons] at h
    obtain ⟨first, hfirst, h⟩ := bind_eq_ok_iff.1 h
    obtain ⟨others, hothers, h⟩ := bind_eq_ok_iff.1 h
    obtain rfl : first :: others = results := by simpa [pure, Except.pure] using h
    rcases List.mem_cons.1 hr with rfl | hr
    · exact ⟨item, by simp, hfirst⟩
    · obtain ⟨i, hi, hf⟩ := ih hothers hr
      exact ⟨i, by simp [hi], hf⟩

/-- What holds at the start of a fold and is kept by every step holds at its end. -/
theorem foldlM_invariant {step : β → α → Except ε β} (P : β → Prop) {items : List α}
    (keep : ∀ b item b', item ∈ items → P b → step b item = .ok b' → P b') {start : β}
    (hstart : P start) {result : β} (h : items.foldlM step start = .ok result) : P result := by
  induction items generalizing start with
  | nil =>
    obtain rfl : start = result := by simpa [pure, Except.pure] using h
    exact hstart
  | cons item rest ih =>
    rw [List.foldlM_cons] at h
    obtain ⟨next, hnext, h⟩ := bind_eq_ok_iff.1 h
    exact ih (fun b i b' hi => keep b i b' (by simp [hi])) (keep start item next (by simp) hstart hnext) h

end JsonFilter.Traverse
