import DurableScript.Compile
import DurableScript.Proofs.Tables

namespace DurableScript

/-- Names that the compiler keeps to itself. -/
def isHidden (name : String) : Bool := "_l/".toList.isPrefixOf name.toList

namespace Node

theorem toList_loopVariable (start : Nat) (role : String) : (loopVariable start role).toList =
      "_l/".toList ++ Nat.toDigits 10 start ++ '/' :: role.toList := by
  simp [loopVariable, String.toList_append]

@[simp] theorem isHidden_loopVariable (start : Nat) (role : String) :
    isHidden (loopVariable start role) = true := by
  rw [isHidden, toList_loopVariable, List.append_assoc]
  exact List.isPrefixOf_iff_prefix.2 (List.prefix_append _ _)

theorem ne_loopVariable {name : String} (h : isHidden name = false) (start : Nat)
    (role : String) : name ≠ loopVariable start role := by
  rintro rfl
  simp at h

theorem slash_notMem_toDigits (n : Nat) : '/' ∉ Nat.toDigits 10 n := by
  intro h
  exact absurd (Nat.isDigit_of_mem_toDigits (by decide) (by decide) h) (by decide)

theorem loopVariable_inj {start start' : Nat} {role role' : String}
    (h : loopVariable start role = loopVariable start' role') : start = start' ∧ role = role' := by
  have hlist := congrArg String.toList h
  rw [toList_loopVariable, toList_loopVariable, List.append_assoc, List.append_assoc] at hlist
  have hsplit := List.append_cancel_left hlist
  have htake (n : Nat) (rest : List Char) :
      (Nat.toDigits 10 n ++ '/' :: rest).takeWhile (· != '/') = Nat.toDigits 10 n := by
    have hdigits : ∀ c ∈ Nat.toDigits 10 n, (c != '/') = true := fun c hc =>
      bne_iff_ne.2 fun h => slash_notMem_toDigits n (h ▸ hc)
    rw [List.takeWhile_append_of_pos hdigits]
    simp
  have hdigits : Nat.toDigits 10 start = Nat.toDigits 10 start' := by
    rw [← htake start role.toList, hsplit, htake]
  rw [hdigits] at hsplit
  refine ⟨?_, ?_⟩
  · rw [← @Nat.ofDigitChars_ten_toDigits start, hdigits, Nat.ofDigitChars_ten_toDigits]
  · exact String.toList_inj.1 (List.cons.inj (List.append_cancel_left hsplit)).2

end Node

namespace Node

mutual

def names : Node → List String
  | root nodes _ => namesIn nodes
  | assign name value _ => name :: names value
  | branch condition body orElse otherwise _ =>
    names condition ++ namesIn body ++ namesOf orElse ++ otherwiseNames otherwise
  | countLoop first last step counter body _ =>
    names first ++ names last ++ namesOf step ++ counter.toList ++ namesIn body
  | eachLoop items item body _ => item :: names items ++ namesIn body
  | whileLoop condition body _ => names condition ++ namesIn body
  | procedure _ params body _ => params ++ namesIn body
  | ret result _ => namesOf result
  | call _ args _ => namesIn args
  | methodCall object _ args _ => object :: namesIn args
  | group inner _ => names inner
  | binary _ left right _ => names left ++ names right
  | negate inner _ => names inner
  | path parts _ => parts.getLast?.toList
  | ident name _ => [name]
  | _ => []

def namesIn : List Node → List String
  | [] => []
  | first :: rest => names first ++ namesIn rest

def namesOf : Option Node → List String
  | none => []
  | some node => names node

def otherwiseNames : Option (List Node) → List String
  | none => []
  | some body => namesIn body

end

end Node

def Discreet (names : List String) : Prop := ∀ name ∈ names, isHidden name = false

namespace Discreet

@[simp] theorem nil : Discreet [] := nofun

@[simp] theorem cons_iff {name : String} {names : List String} :
    Discreet (name :: names) ↔ isHidden name = false ∧ Discreet names := List.forall_mem_cons

@[simp] theorem append_iff {names others : List String} :
    Discreet (names ++ others) ↔ Discreet names ∧ Discreet others := List.forall_mem_append

end Discreet

namespace Table

variable {α : Type}

def visible (table : Table α) : Table α := table.filter fun entry => !isHidden entry.1

@[simp] theorem visible_nil : visible ([] : Table α) = [] := rfl

theorem find?_visible {name : String} (h : isHidden name = false) (table : Table α) :
    find? name (visible table) = find? name table := by
  induction table with
  | nil => rfl
  | cons entry rest ih =>
    obtain ⟨key, value⟩ := entry
    by_cases hk : isHidden key = true
    · have hne : key ≠ name := by
        rintro rfl
        rw [h] at hk
        cases hk
      simp [visible, find?, hk, hne] at ih ⊢
      exact ih
    · simp [visible, find?, hk] at ih ⊢
      rw [ih]

theorem visible_insert {name : String} (h : isHidden name = false) (value : α)
    (table : Table α) : visible (insert name value table) = insert name value (visible table) := by
  induction table with
  | nil => simp [visible, h]
  | cons entry rest ih =>
    obtain ⟨key, old⟩ := entry
    by_cases hk : key = name
    · subst hk
      simp [visible, insert, h]
    · by_cases hh : isHidden key = true
      · simp [visible, insert, hk, hh] at ih ⊢
        exact ih
      · simp [visible, insert, hk, hh] at ih ⊢
        exact ih

theorem visible_insert_hidden {name : String} (h : isHidden name = true) (value : α)
    (table : Table α) : visible (insert name value table) = visible table := by
  induction table with
  | nil => simp [visible, h]
  | cons entry rest ih =>
    obtain ⟨key, old⟩ := entry
    by_cases hk : key = name
    · subst hk
      simp [visible, insert, h]
    · simp only [visible, insert, if_neg hk, List.filter_cons] at ih ⊢
      rw [ih]

theorem contains_visible {name : String} (h : isHidden name = false) (table : Table α) :
    contains name (visible table) = contains name table := by
  rw [contains, contains, find?_visible h]

end Table

end DurableScript
