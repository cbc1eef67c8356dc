import DurableScript.Proofs.TaggedText

namespace DurableScript

namespace Tagged

def joined (pairs : List (String × String)) : String :=
  ",".intercalate (pairs.map fun pair => pairText pair.1 pair.2)

def pair? (part : List Char) : Option (String × String) :=
  (Text.splitFirst? ':' part).map fun (name, inline) =>
    (String.ofList (Text.unescape name), String.ofList (Text.unescape inline))

def pairs? (text : List Char) : Option (List (String × String)) :=
  ((Text.splitAll ',' text).filter fun part => !Text.isAllBlank part).mapM pair?

theorem pair?_pairText (name inline : String) :
    pair? (pairText name inline).toList = some (name, inline) := by
  simp [pair?, splitFirst?_pair]

theorem toList_joined (pairs : List (String × String)) : (joined pairs).toList =
    [','].intercalate (pairs.map fun pair => (pairText pair.1 pair.2).toList) := by
  rw [joined, String.toList_intercalate, List.map_map]
  rfl

theorem mapM_pair? (pairs : List (String × String)) :
    (pairs.map fun pair => (pairText pair.1 pair.2).toList).mapM pair? = some pairs := by
  induction pairs with
  | nil => rfl
  | cons pair rest ih =>
    rw [List.map_cons, List.mapM_cons, pair?_pairText, ih]
    rfl

theorem sealed_parts {pairs : List (String × String)} {part : List Char}
    (h : part ∈ pairs.map fun pair => (pairText pair.1 pair.2).toList) :
    Text.Sealed ',' part ∧ Text.isAllBlank part = false := by
  obtain ⟨pair, -, rfl⟩ := List.mem_map.1 h
  exact ⟨sealed_pair pair.1 pair.2, isAllBlank_pair pair.1 pair.2⟩

theorem filter_splitAll_joined (pairs : List (String × String)) :
    (Text.splitAll ',' (joined pairs).toList).filter (fun part => !Text.isAllBlank part) =
      pairs.map fun pair => (pairText pair.1 pair.2).toList := by
  rw [toList_joined]
  exact Text.filter_splitAll_intercalate (by decide) (fun _ hpart => (sealed_parts hpart).1)
    fun _ hpart => (sealed_parts hpart).2

theorem pairs?_joined (pairs : List (String × String)) :
    pairs? (joined pairs).toList = some pairs := by
  rw [pairs?, filter_splitAll_joined]
  exact mapM_pair? pairs

theorem ofPairs_joined (read : List Char → Tagged) (pairs : List (String × String)) :
    ofPairs read (joined pairs).toList =
      pairs.map fun (name, inline) => (name, read inline.toList) := by
  rw [ofPairs, filter_splitAll_joined, List.map_map]
  refine List.map_congr_left fun pair _ => ?_
  rw [Function.comp_apply, ofPair_pairText]

theorem exists_blank_iff (pairs : List (String × String)) :
    (∃ part ∈ Text.splitAll ',' (joined pairs).toList, Text.isAllBlank part = true) ↔ pairs = [] := by
  refine ⟨?_, ?_⟩
  · rintro ⟨part, hpart, hblank⟩
    by_contra hne
    rw [toList_joined, Text.splitAll_intercalate (by decide) (by simpa using hne)
      fun _ hpart => (sealed_parts hpart).1] at hpart
    cases hblank.symm.trans (sealed_parts hpart).2
  · rintro rfl
    exact ⟨[], by decide, rfl⟩

end Tagged

namespace Value

open Tagged

theorem fieldForms_strs (objects : Objects) (pairs : List (String × String)) :
    fieldForms objects (pairs.map fun (name, s) => (name, str s)) =
      .ok (pairs.map fun (name, s) => pairText name ("s:" ++ s)) := by
  induction pairs with
  | nil => rfl
  | cons pair rest ih =>
    rw [List.map_cons, fieldForms, ih]
    rfl

theorem tagForm_strs (objects : Objects) (pairs : List (String × String)) :
    (record (pairs.map fun (name, s) => (name, str s))).tagForm objects =
      .ok (.text ("os:" ++ joined (pairs.map fun (name, s) => (name, "s:" ++ s)))) := by
  rw [tagForm, fieldForms_strs, joined, List.map_map]
  rfl

end Value

/-- What a text is to be read as: itself, or the pairs of a record, the text of each read in turn. -/
inductive Form where
  | text
  | pairs (inner : List Form)

namespace Form

open Tagged

mutual

inductive Content : Form → Type where
  | text (s : String) : Content text
  | pairs {inner : List Form} (fields : Contents inner) : Content (pairs inner)

inductive Contents : List Form → Type where
  | nil : Contents []
  | cons {form : Form} {inner : List Form} (name : String) (content : Content form)
      (rest : Contents inner) : Contents (form :: inner)

end

mutual

def written {form : Form} : Content form → String
  | .text s => s
  | .pairs fields => joined (writtenAll fields)

def writtenAll {inner : List Form} : Contents inner → List (String × String)
  | .nil => []
  | .cons name content rest => (name, written content) :: writtenAll rest

end

mutual

def read? : (form : Form) → List Char → Option (Content form)
  | text, chars => some (.text (String.ofList chars))
  | pairs inner, chars => do
    let fields ← readAll? inner (← pairs? chars)
    return .pairs fields

def readAll? : (inner : List Form) → List (String × String) → Option (Contents inner)
  | [], [] => some .nil
  | form :: inner, (name, inline) :: more => do
    let content ← read? form inline.toList
    let rest ← readAll? inner more
    return .cons name content rest
  | _, _ => none

end

mutual

theorem read?_written {form : Form} : ∀ content : Content form,
    read? form (written content).toList = some content
  | .text s => by rw [written, read?, String.ofList_toList]
  | .pairs fields => by
    rw [written, read?, pairs?_joined]
    simp [readAll?_writtenAll fields]

theorem readAll?_writtenAll {inner : List Form} : ∀ fields : Contents inner,
    readAll? inner (writtenAll fields) = some fields
  | .nil => rfl
  | .cons name content rest => by
    rw [writtenAll, readAll?, read?_written content, readAll?_writtenAll rest]
    rfl

end

end Form

/-- Whatever the names and texts, the pairs of a record are read back as they were, in their order,
also when the texts are records themselves. Nothing but the empty record leaves a blank part. -/
theorem record_text_is_lossless (pairs : List (String × String)) :
    Tagged.pairs? (Tagged.joined pairs).toList = some pairs ∧
    (∀ read, Tagged.ofPairs read (Tagged.joined pairs).toList =
      pairs.map fun (name, inline) => (name, read inline.toList)) ∧
    ((∃ part ∈ Text.splitAll ',' (Tagged.joined pairs).toList, Text.isAllBlank part = true) ↔
      pairs = []) ∧
    (∀ objects, (Value.record (pairs.map fun (name, s) => (name, .str s))).tagForm objects =
      .ok (.text ("os:" ++ Tagged.joined (pairs.map fun (name, s) => (name, "s:" ++ s))))) ∧
    ∀ (form : Form) (content : Form.Content form),
      Form.read? form (Form.written content).toList = some content :=
  ⟨Tagged.pairs?_joined pairs, fun read => Tagged.ofPairs_joined read pairs,
    Tagged.exists_blank_iff pairs, fun objects => Value.tagForm_strs objects pairs,
    fun _ => Form.read?_written⟩

end DurableScript
