import DurableScript.Text.Blank
import DurableScript.Text.Escape

namespace DurableScript.Text

/-- No separator stands bare in the text, and no backslash at its end. -/
inductive Sealed (separator : Char) : List Char → Prop where
  | nil : Sealed separator []
  | escaped {c : Char} {rest : List Char} :
      Sealed separator rest → Sealed separator ('\\' :: c :: rest)
  | plain {c : Char} {rest : List Char} :
      c ≠ '\\' → c ≠ separator → Sealed separator rest → Sealed separator (c :: rest)

variable {separator : Char} {specials text rest : List Char}

theorem unescape_cons {c : Char} (h : c ≠ '\\') (rest : List Char) :
    unescape (c :: rest) = c :: unescape rest := by
  rw [unescape] <;> simp [h]

@[simp] theorem unescape_escape (specials text : List Char) :
    unescape (escape specials text) = text := by
  induction text with
  | nil => rfl
  | cons c rest ih =>
    rw [escape]
    split
    · exact congrArg (c :: ·) ih
    · next h =>
      rw [unescape_cons fun hc => h (.inl hc), ih]

theorem sealed_escape (h : separator ∈ specials) (text : List Char) :
    Sealed separator (escape specials text) := by
  induction text with
  | nil => exact .nil
  | cons c rest ih =>
    rw [escape]
    split
    · exact .escaped ih
    · next hc =>
      rw [not_or] at hc
      exact .plain hc.1 (fun hs => hc.2 (hs ▸ h)) ih

theorem length_le_escape (specials text : List Char) :
    text.length ≤ (escape specials text).length := by
  induction text with
  | nil => exact Nat.le_refl _
  | cons c rest ih =>
    rw [escape]
    split <;> simp only [List.length_cons] <;> omega

theorem Sealed.append (h : Sealed separator text) (h' : Sealed separator rest) :
    Sealed separator (text ++ rest) := by
  induction h with
  | nil => exact h'
  | escaped _ ih => exact .escaped ih
  | plain hc hs _ ih => exact .plain hc hs ih

theorem splitFirst?_cons {c : Char} (h : c ≠ '\\') (rest : List Char) :
    splitFirst? separator (c :: rest) =
      if c = separator then some ([], rest)
      else (splitFirst? separator rest).map fun (before, after) => (c :: before, after) := by
  rw [splitFirst?] <;> simp [h]

theorem Sealed.splitFirst? (h : Sealed separator text) (hne : separator ≠ '\\') (rest : List Char) :
    splitFirst? separator (text ++ separator :: rest) = some (text, rest) := by
  induction h with
  | nil => rw [List.nil_append, splitFirst?_cons hne, if_pos rfl]
  | escaped _ ih => exact congrArg (Option.map _) ih
  | plain hc hs _ ih => rw [List.cons_append, splitFirst?_cons hc, if_neg hs, ih]; rfl

theorem splitAll_separator (h : separator ≠ '\\') (rest : List Char) :
    splitAll separator (separator :: rest) = [] :: splitAll separator rest := by
  rw [splitAll] <;> simp [h]

section

variable {part : List Char} {parts : List (List Char)}

theorem splitAll_cons {c : Char} (hc : c ≠ '\\') (hs : c ≠ separator)
    (h : splitAll separator rest = part :: parts) :
    splitAll separator (c :: rest) = (c :: part) :: parts := by
  rw [splitAll, if_neg hs, h] <;> simp [hc]

theorem splitAll_escaped (c : Char) (h : splitAll separator rest = part :: parts) :
    splitAll separator ('\\' :: c :: rest) = ('\\' :: c :: part) :: parts := by
  rw [splitAll, h]

end

theorem Sealed.splitAll_self (h : Sealed separator text) : splitAll separator text = [text] := by
  induction h with
  | nil => rfl
  | escaped _ ih => exact splitAll_escaped _ ih
  | plain hc hs _ ih => exact splitAll_cons hc hs ih

theorem Sealed.splitAll_append (h : Sealed separator text) (hne : separator ≠ '\\')
    (rest : List Char) :
    splitAll separator (text ++ separator :: rest) = text :: splitAll separator rest := by
  induction h with
  | nil => exact splitAll_separator hne rest
  | escaped _ ih => exact splitAll_escaped _ ih
  | plain hc hs _ ih => exact splitAll_cons hc hs ih

theorem length_le_intercalate (separator : Char) {part : List Char} {parts : List (List Char)}
    (h : part ∈ parts) : part.length ≤ ([separator].intercalate parts).length := by
  match parts, h with
  | [first], h => exact Nat.le_of_eq (by rw [List.mem_singleton.1 h, List.intercalate_singleton])
  | first :: next :: parts, h =>
    rw [List.intercalate_cons_cons, List.length_append, List.length_append]
    rcases List.mem_cons.1 h with rfl | h
    · omega
    · have := length_le_intercalate separator h
      omega

theorem splitAll_intercalate (hne : separator ≠ '\\') {parts : List (List Char)}
    (hparts : parts ≠ []) (hsealed : ∀ part ∈ parts, Sealed separator part) :
    splitAll separator ([separator].intercalate parts) = parts := by
  match parts with
  | [part] =>
    rw [List.intercalate_singleton]
    exact (hsealed part (by simp)).splitAll_self
  | part :: next :: parts =>
    have hrest := @splitAll_intercalate hne (next :: parts) (by simp)
      fun part h => hsealed part (List.mem_cons_of_mem _ h)
    rw [List.intercalate_cons_cons, List.append_assoc, List.singleton_append,
      (hsealed part (by simp)).splitAll_append hne, hrest]

theorem filter_splitAll_intercalate (hne : separator ≠ '\\') {parts : List (List Char)}
    (hsealed : ∀ part ∈ parts, Sealed separator part)
    (hblank : ∀ part ∈ parts, isAllBlank part = false) :
    (splitAll separator ([separator].intercalate parts)).filter (fun part => !isAllBlank part) =
      parts := by
  by_cases hparts : parts = []
  · subst hparts
    rfl
  · rw [splitAll_intercalate hne hparts hsealed]
    exact List.filter_eq_self.2 fun part h => by rw [hblank part h, Bool.not_false]

end DurableScript.Text
