import DurableScript.Table
import Mathlib.Data.List.Forall2

namespace DurableScript

namespace Table

variable {α β : Type} {name : String} {value : α} {table left : Table α} {pairs : List (String × α)}
  {entry : String × α} {R : α → β → Prop} {right : Table β}

theorem find?_insert (name other : String) (value : α) (table : Table α) :
    find? other (insert name value table) = if name = other then some value else find? other table := by
  split
  · next h => rw [← h, find?_insert_self]
  · next h => exact find?_insert_of_ne (Ne.symm h) value table

theorem mem_of_find? (h : find? name table = some value) : (name, value) ∈ table := by
  induction table with
  | nil => cases h
  | cons first rest ih =>
    obtain ⟨key, other⟩ := first
    rw [find?] at h
    split at h
    · next hkey =>
      cases h
      exact hkey ▸ List.mem_cons_self ..
    · exact List.mem_cons_of_mem _ (ih h)

theorem mem_of_find?_insertAll (h : find? name (insertAll table pairs) = some value) :
    find? name table = some value ∨ (name, value) ∈ pairs := by
  induction pairs generalizing table with
  | nil => exact .inl h
  | cons pair pairs ih =>
    obtain ⟨key, first⟩ := pair
    rcases ih h with hfound | hmem
    · rw [find?_insert] at hfound
      split at hfound
      · next hkey =>
        cases hfound
        exact .inr (hkey ▸ List.mem_cons_self ..)
      · exact .inl hfound
    · exact .inr (List.mem_cons_of_mem _ hmem)

theorem mem_of_find?_ofPairs (h : find? name (ofPairs pairs) = some value) :
    (name, value) ∈ pairs :=
  (mem_of_find?_insertAll h).resolve_left nofun

theorem mem_of_mem_insert (h : entry ∈ insert name value table) :
    entry = (name, value) ∨ entry ∈ table := by
  induction table with
  | nil => exact .inl (List.mem_singleton.1 h)
  | cons first rest ih =>
    obtain ⟨key, old⟩ := first
    rw [insert] at h
    split at h
    · next hkey =>
      rcases List.mem_cons.1 h with rfl | h
      · exact .inl (by rw [hkey])
      · exact .inr (List.mem_cons_of_mem _ h)
    · rcases List.mem_cons.1 h with rfl | h
      · exact .inr List.mem_cons_self
      · exact (ih h).imp_right (List.mem_cons_of_mem _)

theorem mem_of_mem_insertAll (h : entry ∈ insertAll table pairs) :
    entry ∈ table ∨ entry ∈ pairs := by
  induction pairs generalizing table with
  | nil => exact .inl h
  | cons pair pairs ih =>
    rcases ih h with h | h
    · rcases mem_of_mem_insert h with rfl | h
      · exact .inr List.mem_cons_self
      · exact .inl h
    · exact .inr (List.mem_cons_of_mem _ h)

theorem mem_of_mem_ofPairs (h : entry ∈ ofPairs pairs) :
    entry ∈ pairs := (mem_of_mem_insertAll h).resolve_left nofun

theorem Distinct.insert (h : Distinct table) (name : String) (value : α) :
    Distinct (insert name value table) := by
  induction table with
  | nil => exact List.nodup_cons.2 ⟨nofun, .nil⟩
  | cons first rest ih =>
    obtain ⟨key, old⟩ := first
    rw [Table.insert]
    split
    · exact h
    · next hkey =>
      obtain ⟨hnotMem, hrest⟩ := List.nodup_cons.1 h
      refine List.nodup_cons.2 ⟨fun hmem => ?_, ih hrest⟩
      obtain ⟨entry, hentry, hname⟩ := List.mem_map.1 hmem
      rcases mem_of_mem_insert hentry with rfl | hentry
      · exact hkey hname.symm
      · exact hnotMem (List.mem_map.2 ⟨entry, hentry, hname⟩)

theorem Distinct.insertAll (h : Distinct table) (pairs : List (String × α)) :
    Distinct (insertAll table pairs) := by
  induction pairs generalizing table with
  | nil => exact h
  | cons pair pairs ih => exact ih (h.insert pair.1 pair.2)

theorem distinct_nil : Distinct ([] : Table α) := List.nodup_nil

theorem distinct_ofPairs (pairs : List (String × α)) : Distinct (ofPairs pairs) :=
  distinct_nil.insertAll pairs

theorem insert_of_notMem (h : name ∉ keys table) (value : α) :
    insert name value table = table ++ [(name, value)] := by
  induction table with
  | nil => rfl
  | cons entry rest ih =>
    obtain ⟨key, old⟩ := entry
    rw [keys, List.map_cons, List.mem_cons, not_or] at h
    rw [insert, if_neg (Ne.symm h.1), ih h.2, List.cons_append]

theorem notMem_keys_of_distinct {rest : Table α} (h : Distinct (table ++ (name, value) :: rest)) :
    name ∉ keys table := by
  rw [Distinct, keys, List.map_append, List.map_cons, List.nodup_append] at h
  exact fun hmem => h.2.2 name hmem name List.mem_cons_self rfl

theorem insertAll_of_distinct {pairs : Table α} (h : Distinct (table ++ pairs)) :
    insertAll table pairs = table ++ pairs := by
  induction pairs generalizing table with
  | nil => exact (List.append_nil table).symm
  | cons pair rest ih =>
    have hinsert := insert_of_notMem (notMem_keys_of_distinct h) pair.2
    rw [List.append_cons] at h ⊢
    rw [← ih h, ← hinsert]
    rfl

theorem ofPairs_of_distinct {pairs : Table α} (h : Distinct pairs) : ofPairs pairs = pairs :=
  insertAll_of_distinct h

theorem find?_of_mem (hdistinct : Distinct table) (h : (name, value) ∈ table) :
    find? name table = some value := by
  induction table with
  | nil => cases h
  | cons first rest ih =>
    obtain ⟨key, other⟩ := first
    obtain ⟨hnotMem, hrest⟩ := List.nodup_cons.1 hdistinct
    rw [find?]
    rcases List.mem_cons.1 h with h | h
    · cases h
      rw [if_pos rfl]
    · have hne : key ≠ name := fun heq => hnotMem (List.mem_map.2 ⟨_, h, heq.symm⟩)
      rw [if_neg hne, ih hrest h]

theorem find?_insertAll (name : String) (table : Table α) (pairs : List (String × α)) :
    find? name (insertAll table pairs) =
      ((pairs.reverse.find? fun pair => pair.1 = name).map Prod.snd).or (find? name table) := by
  induction pairs generalizing table with
  | nil => rfl
  | cons pair rest ih =>
    rw [insertAll, List.foldl_cons, ← insertAll, ih, find?_insert, List.reverse_cons,
      List.find?_append]
    cases rest.reverse.find? fun pair => pair.1 = name with
    | some last => rfl
    | none => by_cases h : pair.1 = name <;> simp [h]

theorem find?_ofPairs (name : String) (pairs : List (String × α)) :
    find? name (ofPairs pairs) = (pairs.reverse.find? fun pair => pair.1 = name).map Prod.snd := by
  rw [ofPairs, find?_insertAll, find?_nil, Option.or_none]

def Related (R : α → β → Prop) (left : Table α) (right : Table β) : Prop :=
  ∀ name, Option.Rel R (find? name left) (find? name right)

theorem Related.insert (h : Related R left right) (name : String) {a : α} {b : β} (hab : R a b) :
    Related R (insert name a left) (insert name b right) := by
  intro other
  rw [find?_insert, find?_insert]
  split
  · exact .some hab
  · exact h other

theorem Related.contains_eq (h : Related R left right) (name : String) :
    contains name right = contains name left := by
  have hfound := h name
  unfold contains
  generalize find? name left = found at hfound ⊢
  generalize find? name right = found' at hfound ⊢
  cases hfound <;> rfl

theorem related_of_forall₂ (h : List.Forall₂ (fun a b => a.1 = b.1 ∧ R a.2 b.2) left right) :
    Related R left right := by
  intro name
  induction h with
  | nil => exact .none
  | @cons a b _ _ hab _ ih =>
    obtain ⟨key, value⟩ := a
    obtain ⟨_, value'⟩ := b
    obtain ⟨rfl, hvalue⟩ := hab
    rw [find?, find?]
    split
    · exact .some hvalue
    · exact ih

theorem forall₂_insert (h : List.Forall₂ (fun a b => a.1 = b.1 ∧ R a.2 b.2) left right)
    (name : String) {a : α} {b : β} (hab : R a b) : List.Forall₂ (fun a b => a.1 = b.1 ∧ R a.2 b.2)
      (insert name a left) (insert name b right) := by
  induction h with
  | nil => exact .cons ⟨rfl, hab⟩ .nil
  | @cons x y _ _ hxy hrest ih =>
    obtain ⟨key, value⟩ := x
    obtain ⟨_, value'⟩ := y
    obtain ⟨rfl, hvalue⟩ := hxy
    rw [insert, insert]
    split
    · exact .cons ⟨rfl, hab⟩ hrest
    · exact .cons ⟨rfl, hvalue⟩ ih

theorem Related.insertAll {as : List (String × α)} {bs : List (String × β)}
    (hpairs : List.Forall₂ (fun a b => a.1 = b.1 ∧ R a.2 b.2) as bs) (h : Related R left right) :
    Related R (insertAll left as) (insertAll right bs) := by
  induction hpairs generalizing left right with
  | nil => exact h
  | @cons a b as bs hab _ ih =>
    obtain ⟨name, value⟩ := a
    obtain ⟨name', value'⟩ := b
    obtain ⟨rfl, hab⟩ := hab
    exact ih (h.insert name hab)

theorem Related.ofPairs {as : List (String × α)} {bs : List (String × β)}
    (hpairs : List.Forall₂ (fun a b => a.1 = b.1 ∧ R a.2 b.2) as bs) :
    Related R (ofPairs as) (ofPairs bs) := insertAll hpairs fun _ => .none

end Table

end DurableScript
