import JsonFilter.Text.Quoted
import Mathlib.Logic.Basic

/-!
# Reading quoted texts

A quoted text is read up to its closing quotation mark, whatever follows, and what is written between
quotation marks reads back.

* `Text.readQuoted_append`: what follows the quotation mark is not looked at;
* `Text.EscapeLetters.Readable`: letters that stand for the characters that they escape;
* `Text.readQuoted_quote`: a text that is quoted with such letters reads back;
* `Text.quote_fewLetters_eq`: where the two tables of letters make no difference.
-/

namespace JsonFilter.Text

/-! ## What follows -/

/-- Reads one character of a quoted text, and the others after it. -/
theorem readQuoted_bind_append {rest more : List Char} {c : Char}
    (ih : ∀ {found after : List Char}, readQuoted none rest = some (found, after) →
      readQuoted none (rest ++ more) = some (found, after ++ more))
    {found after : List Char}
    (h : (readQuoted none rest >>= fun (text, rest) => pure (c :: text, rest)) = some (found, after)) :
    (readQuoted none (rest ++ more) >>= fun (text, rest) => pure (c :: text, rest)) =
      some (found, after ++ more) := by
  obtain ⟨⟨text, rest'⟩, hrest, h⟩ := Option.bind_eq_some_iff.mp h
  obtain ⟨rfl, rfl⟩ := Prod.mk.inj (Option.some.inj h)
  rw [ih hrest]
  rfl

/-- What follows a quoted text is not looked at. -/
theorem readQuoted_append {high : Option Nat} {text found after : List Char} (more : List Char)
    (h : readQuoted high text = some (found, after)) :
    readQuoted high (text ++ more) = some (found, after ++ more) := by
  induction high, text using readQuoted.induct generalizing found after with
  | case1 rest =>
    obtain ⟨rfl, rfl⟩ := Prod.mk.inj (Option.some.inj h)
    rfl
  | case2 high a b c d rest ihnone ihsome =>
    rw [List.cons_append, List.cons_append, List.cons_append, List.cons_append, List.cons_append,
      List.cons_append]
    -- Both texts hold the same unit; whether it ends a pair is known from the unit before it.
    rw [readQuoted] at h ⊢
    obtain ⟨unit, hunit, h⟩ := Option.bind_eq_some_iff.mp h
    refine Option.bind_eq_some_iff.mpr ⟨unit, hunit, ?_⟩
    cases high with
    | some high =>
      dsimp only at h ⊢
      split at h
      · next hlow =>
        rw [if_pos hlow]
        exact readQuoted_bind_append ihnone h
      · cases h
    | none =>
      dsimp only at h ⊢
      split at h
      · next hhigh =>
        rw [if_pos hhigh]
        exact ihsome unit h
      · next hhigh =>
        split at h
        · cases h
        · next hlow =>
          rw [if_neg hhigh, if_neg hlow]
          exact readQuoted_bind_append ihnone h
  | case3 letter rest hother ih =>
    rw [readQuoted.eq_3 _ _ hother] at h
    obtain ⟨c, hletter, h⟩ := Option.bind_eq_some_iff.mp h
    -- The letter is not the one that four hexadecimal digits follow, so more text does not change its role.
    have hu : letter ≠ 'u' := by
      rintro rfl
      cases hletter
    rw [List.cons_append, List.cons_append,
      readQuoted.eq_3 _ _ fun _ _ _ _ _ hletter => absurd hletter hu]
    exact Option.bind_eq_some_iff.mpr ⟨c, hletter, readQuoted_bind_append ih h⟩
  | case4 c rest hquote hunit hletter hc =>
    rw [readQuoted.eq_4 _ _ hquote hunit hletter, if_pos hc] at h
    cases h
  | case5 c rest hquote hunit hletter hc ih =>
    rw [readQuoted.eq_4 _ _ hquote hunit hletter, if_neg hc] at h
    have hslash : c ≠ '\\' := fun heq => hc (Or.inl heq)
    rw [List.cons_append, readQuoted.eq_4 _ _ hquote (fun _ _ _ _ _ heq => absurd heq hslash)
      (fun _ _ heq => absurd heq hslash), if_neg hc]
    exact readQuoted_bind_append ih h
  | case6 text high hquote hunit hletter hother =>
    rw [readQuoted.eq_5 _ _ hunit hquote hletter hother] at h
    cases h

/-! ## What is written -/

/-- The hexadecimal digits of a control character name it. -/
theorem hexUnit?_control : ∀ n < 0x20,
    hexUnit? '0' '0' (Nat.digitChar (n / 16)) (Nat.digitChar (n % 16)) = some n := by
  decide

/-- Letters that read back: each stands for the character that it escapes, and the quotation mark and the
backslash have one. -/
structure EscapeLetters.Readable (letters : EscapeLetters) : Prop where
  unescape : ∀ {c letter : Char}, letters c = some letter → unescapeLetter? letter = some c
  quote : letters '"' ≠ none
  backslash : letters '\\' ≠ none

theorem readable_allLetters : EscapeLetters.Readable allLetters where
  unescape h := by
    unfold allLetters at h
    split at h
    all_goals cases h
    all_goals rfl
  quote := nofun
  backslash := nofun

theorem readable_fewLetters : EscapeLetters.Readable fewLetters where
  unescape h := by
    unfold fewLetters at h
    split at h
    all_goals cases h
    all_goals rfl
  quote := nofun
  backslash := nofun

/-- Only backspace and form feed have a letter in one table and none in the other. -/
theorem fewLetters_eq_allLetters {c : Char} (hb : c ≠ '\x08') (hf : c ≠ '\x0c') :
    fewLetters c = allLetters c := by
  unfold allLetters
  split
  · rfl
  · rfl
  · exact absurd rfl hb
  · exact absurd rfl hf
  · rfl
  · rfl
  · rfl
  · next hquote hslash _ _ hn hr ht =>
    unfold fewLetters
    split
    · exact absurd rfl hquote
    · exact absurd rfl hslash
    · exact absurd rfl hn
    · exact absurd rfl hr
    · exact absurd rfl ht
    · rfl

/-- A text without backspace and form feed is quoted alike with both tables. -/
theorem quote_fewLetters_eq {text : List Char} (hb : '\x08' ∉ text) (hf : '\x0c' ∉ text) :
    quote fewLetters text = quote allLetters text := by
  have hescape : ∀ c ∈ text, escapeChar fewLetters c = escapeChar allLetters c := by
    intro c hc
    unfold escapeChar
    rw [fewLetters_eq_allLetters (fun h => hb (h ▸ hc)) (fun h => hf (h ▸ hc))]
  rw [quote, quote, List.flatMap_def, List.flatMap_def, List.map_congr_left hescape]

/-- An escaped character reads back. -/
theorem readQuoted_escapeChar {letters : EscapeLetters} (h : letters.Readable) (c : Char)
    (rest : List Char) :
    readQuoted none (escapeChar letters c ++ rest) =
      readQuoted none rest >>= fun (text, rest) => pure (c :: text, rest) := by
  unfold escapeChar
  cases hletter : letters c with
  | some letter =>
    have hunescape := h.unescape hletter
    have hu : letter ≠ 'u' := by
      rintro rfl
      cases hunescape
    show readQuoted none ('\\' :: letter :: rest) = _
    rw [readQuoted.eq_3 _ _ fun _ _ _ _ _ heq => absurd heq hu, hunescape]
    rfl
  | none =>
    have hquote : c ≠ '"' := by
      rintro rfl
      exact h.quote hletter
    have hslash : c ≠ '\\' := by
      rintro rfl
      exact h.backslash hletter
    dsimp only
    split
    · next hcontrol =>
      show readQuoted none ('\\' :: 'u' :: '0' :: '0' :: Nat.digitChar (c.toNat / 16) ::
        Nat.digitChar (c.toNat % 16) :: rest) = _
      have hhigh : isHighSurrogate c.toNat = false := by
        rw [isHighSurrogate, decide_eq_false (by omega), Bool.false_and]
      have hlow : isLowSurrogate c.toNat = false := by
        rw [isLowSurrogate, decide_eq_false (by omega), Bool.false_and]
      rw [readQuoted, hexUnit?_control c.toNat hcontrol]
      simp only [Option.bind_eq_bind, Option.bind_some, hhigh, hlow, Bool.false_eq_true, if_false,
        Char.ofNat_toNat]
    · next hcontrol =>
      have hplain : ¬(c = '\\' ∨ c.toNat < 0x20) := not_or.mpr ⟨hslash, hcontrol⟩
      show readQuoted none (c :: rest) = _
      rw [readQuoted.eq_4 _ _ hquote (fun _ _ _ _ _ heq => absurd heq hslash)
        (fun _ _ heq => absurd heq hslash), if_neg hplain]

/-- What is written between quotation marks reads back. -/
theorem readQuoted_quote {letters : EscapeLetters} (h : letters.Readable) (text rest : List Char) :
    readQuoted none (text.flatMap (escapeChar letters) ++ '"' :: rest) = some (text, rest) := by
  induction text with
  | nil => rfl
  | cons c text ih =>
    rw [List.flatMap_cons, List.append_assoc, readQuoted_escapeChar h, ih]
    rfl

end JsonFilter.Text
