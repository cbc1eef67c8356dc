import DurableScript.Proofs.Correspondence
import DurableScript.Proofs.Escaping
import DurableScript.Proofs.JsonText
import DurableScript.Snapshot.Tagged

namespace DurableScript

namespace Json

def IsPlain : Json → Prop
  | null | str _ | arr _ => True
  | _ => False

theorem IsPlain.isReadable : ∀ json, IsPlain json → IsReadable json
  | null, _ | str _, _ | arr _, _ => trivial

def IsShorter (n : Nat) : Json → Prop
  | str s => s.length < n
  | _ => True

theorem length_le_renderString (s : String) : s.length < (renderString s).length := by
  have hescape (c : Char) : 1 ≤ (escapeChar c).length := by
    unfold escapeChar
    split <;> try split
    all_goals simp
  have hlength (text : List Char) : text.length ≤ (text.flatMap escapeChar).length := by
    induction text with
    | nil => exact Nat.le_refl _
    | cons c rest ih =>
      have := hescape c
      simp only [List.flatMap_cons, List.length_append, List.length_cons]
      omega
  have := hlength s.toList
  simp only [String.length_toList] at this
  simp only [renderString, List.cons_append, List.length_cons, List.length_append]
  omega

mutual

theorem everywhere_isShorter {n : Nat} : ∀ json : Json, json.render.length ≤ n →
    json.Everywhere (IsShorter n)
  | .null, _ | .bool _, _ | .num _, _ => trivial
  | .str s, h => Nat.lt_of_lt_of_le (length_le_renderString s) h
  | .arr items, h => by
    rw [render, List.length_cons] at h
    exact ⟨trivial, everywhereItems_isShorter items (by omega)⟩
  | .obj members, h => by
    rw [render, List.length_cons] at h
    exact ⟨trivial, everywhereMembers_isShorter members (by omega)⟩

theorem everywhereItems_isShorter {n : Nat} : ∀ items, (renderItems items).length ≤ n →
    EverywhereItems (IsShorter n) items
  | [], _ => trivial
  | [item], h => by
    rw [renderItems, List.length_append] at h
    exact ⟨everywhere_isShorter item (by omega), trivial⟩
  | item :: next :: rest, h => by
    rw [renderItems, List.length_append, List.length_cons] at h
    · exact ⟨everywhere_isShorter item (by omega),
        everywhereItems_isShorter (next :: rest) (by omega)⟩
    · simp

theorem everywhereMembers_isShorter {n : Nat} : ∀ members, (renderMembers members).length ≤ n →
    EverywhereMembers (IsShorter n) members
  | [], _ => trivial
  | [(name, value)], h => by
    simp only [renderMembers, List.length_append, List.length_cons] at h
    exact ⟨everywhere_isShorter value (by omega), trivial⟩
  | (name, value) :: next :: rest, h => by
    simp only [renderMembers, List.length_append, List.length_cons] at h
    exact ⟨everywhere_isShorter value (by omega),
      everywhereMembers_isShorter (next :: rest) (by omega)⟩

end

end Json

namespace Value

mutual

def tagged (objects : Objects) : Value → Tagged
  | null => .null
  | bool b => .bool b
  | int n => .int n
  | float x => .float x
  | str s => .str s
  | list items => .list (taggedItems objects items)
  | record fields => .record (taggedFields objects fields)
  | object ref =>
    match objects.persisted ref with
    | some (.reference id) => .reference id
    | some (.blob payload) => .blob ((objects.typeName? ref).getD "object") payload
    | none => .fault (.unsupportedObject ((objects.typeName? ref).getD "object"))

def taggedItems (objects : Objects) : List Value → List Tagged
  | [] => []
  | item :: rest => tagged objects item :: taggedItems objects rest

def taggedFields (objects : Objects) : List (String × Value) → List (String × Tagged)
  | [] => []
  | (name, value) :: rest => (name, tagged objects value) :: taggedFields objects rest

end

mutual

/-- The fields of a record differ in name, and host objects are kept by reference. -/
def Keepable (objects : Objects) : Value → Prop
  | list items => KeepableItems objects items
  | record fields => Table.Distinct fields ∧ KeepableFields objects fields
  | object ref => ∃ id, objects.persisted ref = some (.reference id)
  | _ => True

def KeepableItems (objects : Objects) : List Value → Prop
  | [] => True
  | item :: rest => Keepable objects item ∧ KeepableItems objects rest

def KeepableFields (objects : Objects) : List (String × Value) → Prop
  | [] => True
  | (_, value) :: rest => Keepable objects value ∧ KeepableFields objects rest

end

mutual

def WellNamed : Value → Prop
  | list items => WellNamedItems items
  | record fields => Table.Distinct fields ∧ WellNamedFields fields
  | _ => True

def WellNamedItems : List Value → Prop
  | [] => True
  | item :: rest => WellNamed item ∧ WellNamedItems rest

def WellNamedFields : List (String × Value) → Prop
  | [] => True
  | (_, value) :: rest => WellNamed value ∧ WellNamedFields rest

end

mutual

def levels : Value → Nat
  | list items => itemLevels items + 1
  | _ => 0

def itemLevels : List Value → Nat
  | [] => 0
  | item :: rest => max (levels item) (itemLevels rest)

end

mutual

/-- A list in a record is a text of its own, and does not nest too deep for it. -/
def Shallow : Value → Prop
  | list items => ShallowItems items
  | record fields => ShallowFields fields
  | _ => True

def ShallowItems : List Value → Prop
  | [] => True
  | item :: rest => Shallow item ∧ ShallowItems rest

def ShallowFields : List (String × Value) → Prop
  | [] => True
  | (_, value) :: rest => (Shallow value ∧ levels value ≤ Json.maxLevels) ∧ ShallowFields rest

end

mutual

/-- What is read from the text of a value, if `leaf` is what is read from that of an object. A list
in a record that nests too deep is a fault. -/
def spelled (leaf : ObjectRef Value → Tagged) : Value → Tagged
  | null => .null
  | bool b => .bool b
  | int n => .int n
  | float x => .float x
  | str s => .str s
  | list items => .list (spelledItems leaf items)
  | record fields => .record (spelledFields leaf fields)
  | object ref => leaf ref

def spelledItems (leaf : ObjectRef Value → Tagged) : List Value → List Tagged
  | [] => []
  | item :: rest => spelled leaf item :: spelledItems leaf rest

def spelledFields (leaf : ObjectRef Value → Tagged) : List (String × Value) → List (String × Tagged)
  | [] => []
  | (name, value) :: rest =>
    (name, if value.levels ≤ Json.maxLevels then spelled leaf value else .fault .json) ::
      spelledFields leaf rest

end

end Value

namespace Objects

def tagged (objects : Objects) (ref : ObjectRef Value) : Tagged := (Value.object ref).tagged objects

def Spells (objects : Objects) (leaf : ObjectRef Value → Tagged) (ref : ObjectRef Value) : Prop :=
  ∃ s, objects.tagForm ref = .ok (.text s) ∧
    ∀ fuel, Tagged.ofChars (fuel + 1) s.toList = leaf ref

theorem spells_of_reference {objects : Objects} {ref : ObjectRef Value} {id : String}
    (h : objects.persisted ref = some (.reference id)) : objects.Spells objects.tagged ref :=
  ⟨"o:" ++ id, by rw [tagForm, h], fun fuel => by simp [Tagged.ofChars, tagged, Value.tagged, h]⟩

end Objects

namespace Value

variable {objects : Objects}

mutual

theorem Shallow.spelled_eq : ∀ {value : Value}, value.Shallow →
    value.spelled objects.tagged = value.tagged objects
  | null, _ | bool _, _ | int _, _ | float _, _ | str _, _ | object _, _ => rfl
  | list _, h => congrArg Tagged.list (ShallowItems.spelled_eq h)
  | record _, h => congrArg Tagged.record (ShallowFields.spelled_eq h)

theorem ShallowItems.spelled_eq : ∀ {items : List Value}, ShallowItems items →
    spelledItems objects.tagged items = taggedItems objects items
  | [], _ => rfl
  | _ :: _, h => by rw [spelledItems, taggedItems, h.1.spelled_eq, ShallowItems.spelled_eq h.2]

theorem ShallowFields.spelled_eq : ∀ {fields : List (String × Value)}, ShallowFields fields →
    spelledFields objects.tagged fields = taggedFields objects fields
  | [], _ => rfl
  | (_, _) :: _, h => by
    rw [spelledFields, taggedFields, if_pos h.1.2, h.1.1.spelled_eq, ShallowFields.spelled_eq h.2]

end

mutual

theorem Keepable.wellNamed : ∀ {value : Value}, value.Keepable objects → value.WellNamed
  | null, _ | bool _, _ | int _, _ | float _, _ | str _, _ | object _, _ => trivial
  | list _, h => KeepableItems.wellNamed h
  | record _, h => ⟨h.1, KeepableFields.wellNamed h.2⟩

theorem KeepableItems.wellNamed : ∀ {items : List Value}, KeepableItems objects items →
    WellNamedItems items
  | [], _ => trivial
  | _ :: _, h => ⟨h.1.wellNamed, KeepableItems.wellNamed h.2⟩

theorem KeepableFields.wellNamed : ∀ {fields : List (String × Value)},
    KeepableFields objects fields → WellNamedFields fields
  | [], _ => trivial
  | (_, _) :: _, h => ⟨h.1.wellNamed, KeepableFields.wellNamed h.2⟩

end

mutual

theorem Keepable.exists_reference : ∀ {value : Value}, value.Keepable objects →
    ∀ ref ∈ value.refs, ∃ id, objects.persisted ref = some (.reference id)
  | null, _ | bool _, _ | int _, _ | float _, _ | str _, _ => nofun
  | list _, h => KeepableItems.exists_reference h
  | record _, h => KeepableFields.exists_reference h.2
  | object _, h => List.forall_mem_singleton.2 h

theorem KeepableItems.exists_reference : ∀ {items : List Value}, KeepableItems objects items →
    ∀ ref ∈ refsItems items, ∃ id, objects.persisted ref = some (.reference id)
  | [], _ => nofun
  | _ :: _, h => List.forall_mem_append.2 ⟨h.1.exists_reference, KeepableItems.exists_reference h.2⟩

theorem KeepableFields.exists_reference : ∀ {fields : List (String × Value)},
    KeepableFields objects fields →
    ∀ ref ∈ refsFields fields, ∃ id, objects.persisted ref = some (.reference id)
  | [], _ => nofun
  | (_, _) :: _, h =>
    List.forall_mem_append.2 ⟨h.1.exists_reference, KeepableFields.exists_reference h.2⟩

end

theorem Keepable.spells {value : Value} (h : value.Keepable objects) :
    ∀ ref ∈ value.refs, objects.Spells objects.tagged ref := by
  intro ref href
  obtain ⟨id, hid⟩ := h.exists_reference ref href
  exact Objects.spells_of_reference hid

end Value

namespace Tagged

def ReadBy (read : String → Tagged) : Json → Prop
  | .str s => ∃ fuel, s.length < fuel ∧ read s = ofChars fuel s.toList
  | _ => True

mutual

theorem everywhere_readBy_ofText : ∀ json : Json, json.Everywhere (ReadBy ofText)
  | .null | .bool _ | .num _ => trivial
  | .str s => ⟨s.length + 1, Nat.lt_succ_self _, rfl⟩
  | .arr items => ⟨trivial, everywhereItems_readBy_ofText items⟩
  | .obj members => ⟨trivial, everywhereMembers_readBy_ofText members⟩

theorem everywhereItems_readBy_ofText : ∀ items, Json.EverywhereItems (ReadBy ofText) items
  | [] => trivial
  | item :: rest => ⟨everywhere_readBy_ofText item, everywhereItems_readBy_ofText rest⟩

theorem everywhereMembers_readBy_ofText : ∀ members, Json.EverywhereMembers (ReadBy ofText) members
  | [] => trivial
  | (_, value) :: rest => ⟨everywhere_readBy_ofText value, everywhereMembers_readBy_ofText rest⟩

end

theorem everywhere_readBy_ofChars {fuel : Nat} {json : Json} (h : json.render.length ≤ fuel) :
    json.Everywhere (ReadBy fun s => ofChars fuel s.toList) := by
  refine Json.everywhere_mono (fun json hjson => ?_) json (Json.everywhere_isShorter json h)
  cases json with
  | str s => exact ⟨fuel, hjson, rfl⟩
  | _ => trivial

def pairText (name inline : String) : String :=
  Value.escaped [',', ':'] name ++ ":" ++ Value.escaped [','] inline

theorem splitFirst?_pair (name inline : String) : Text.splitFirst? ':' (pairText name inline).toList =
    some (Text.escape [',', ':'] name.toList, Text.escape [','] inline.toList) := by
  have hsplit := (Text.sealed_escape (by simp : ':' ∈ [',', ':']) name.toList).splitFirst?
    (by decide) (Text.escape [','] inline.toList)
  simp [pairText, Value.escaped, hsplit]

theorem ofPair_pairText (read : List Char → Tagged) (name inline : String) :
    ofPair read (pairText name inline).toList = (name, read inline.toList) := by
  simp [ofPair, splitFirst?_pair]

theorem sealed_pair (name inline : String) : Text.Sealed ',' (pairText name inline).toList := by
  simp only [pairText, Value.escaped, String.toList_append, String.toList_ofList]
  refine .append (.append (Text.sealed_escape (by simp) _) ?_) (Text.sealed_escape (by simp) _)
  exact .plain (by decide) (by decide) .nil

theorem isAllBlank_pair (name inline : String) :
    Text.isAllBlank (pairText name inline).toList = false := by
  have hcolon : Text.isBlank ':' = false := by decide
  simp [pairText, Text.isAllBlank, hcolon]

theorem ofPairs_intercalate (read : List Char → Tagged) {pairs : List String}
    (h : ∀ pair ∈ pairs, Text.Sealed ',' pair.toList ∧ Text.isAllBlank pair.toList = false) :
    ofPairs read (",".intercalate pairs).toList = pairs.map (ofPair read ∘ String.toList) := by
  have hsplit := Text.filter_splitAll_intercalate (by decide)
    (List.forall_mem_map.2 fun pair hpair => (h pair hpair).1)
    (List.forall_mem_map.2 fun pair hpair => (h pair hpair).2)
  rw [ofPairs, String.toList_intercalate, show ",".toList = [','] from rfl, hsplit, List.map_map]

theorem length_le_intercalate {pair : String} {pairs : List String} (h : pair ∈ pairs) :
    pair.length ≤ (",".intercalate pairs).length := by
  have hle : pair.toList.length ≤ ([','].intercalate (pairs.map String.toList)).length :=
    Text.length_le_intercalate ',' (List.mem_map_of_mem h)
  rwa [show [','] = ",".toList from rfl, ← String.toList_intercalate, String.length_toList,
    String.length_toList] at hle

theorem length_le_pair (name inline : String) : inline.length ≤ (pairText name inline).length := by
  have := Text.length_le_escape [','] inline.toList
  rw [String.length_toList] at this
  simp only [pairText, Value.escaped, String.length_append, String.length_ofList]
  omega

end Tagged

namespace TagForm

open Tagged

variable {leaf : ObjectRef Value → Tagged} {value : Value}

structure Spells (leaf : ObjectRef Value → Tagged) (form : TagForm) (value : Value) : Prop where
  plain : form.json.Everywhere Json.IsPlain
  levels_eq : form.json.levels = value.levels
  ofJsonWith_eq : ∀ read, form.json.Everywhere (ReadBy read) →
    ofJsonWith read form.json = value.spelled leaf
  ofChars_eq : ∀ fuel, form.inline.length < fuel → ofChars fuel form.inline.toList =
    if value.levels ≤ Json.maxLevels then value.spelled leaf else .fault .json

theorem spells_text {s : String} (hlevels : value.levels = 0)
    (h : ∀ fuel, s.length ≤ fuel → ofChars (fuel + 1) s.toList = value.spelled leaf) :
    Spells leaf (.text s) value where
  plain := trivial
  levels_eq := hlevels.symm
  ofJsonWith_eq := by
    rintro read ⟨fuel, hfuel, hread⟩
    obtain ⟨fuel, rfl⟩ := Nat.exists_eq_succ_of_ne_zero (Nat.ne_zero_of_lt hfuel)
    exact hread.trans (h fuel (Nat.le_of_lt_succ hfuel))
  ofChars_eq := by
    intro fuel hfuel
    obtain ⟨fuel, rfl⟩ := Nat.exists_eq_succ_of_ne_zero (Nat.ne_zero_of_lt hfuel)
    rw [hlevels, if_pos (Nat.zero_le _)]
    exact h fuel (Nat.le_of_lt_succ hfuel)

theorem spells_null : Spells leaf .null .null where
  plain := trivial
  levels_eq := rfl
  ofJsonWith_eq _ _ := rfl
  ofChars_eq := by
    rintro (_ | fuel) hfuel
    · exact absurd hfuel (Nat.not_lt_zero _)
    · rfl

theorem spells_list {forms : List Json} {items : List Value}
    (hplain : Json.EverywhereItems Json.IsPlain forms)
    (hlevels : Json.itemLevels forms = Value.itemLevels items)
    (h : ∀ read, Json.EverywhereItems (ReadBy read) forms →
      ofItems read forms = Value.spelledItems leaf items) :
    Spells leaf (.list forms) (.list items) where
  plain := ⟨trivial, hplain⟩
  levels_eq := congrArg (· + 1) hlevels
  ofJsonWith_eq read hread := congrArg Tagged.list (h read hread.2)
  ofChars_eq := by
    intro fuel hfuel
    obtain ⟨fuel, rfl⟩ := Nat.exists_eq_succ_of_ne_zero (Nat.ne_zero_of_lt hfuel)
    have hjson : (Json.arr forms).Everywhere Json.IsPlain := ⟨trivial, hplain⟩
    have hparse := Json.parse?_text (Json.everywhere_mono Json.IsPlain.isReadable _ hjson)
    have hshort : (Json.arr forms).render.length ≤ fuel := by
      simp only [inline, Json.text, String.length_append, String.length_ofList] at hfuel
      omega
    have hread := everywhere_readBy_ofChars hshort
    rw [Json.levels, hlevels] at hparse
    rw [Value.levels]
    split at hparse
    · next hmax =>
      simp only [inline, String.toList_append, String.reduceToList, List.cons_append, List.nil_append,
        ofChars, hparse, ofJsonWith, h _ hread.2, if_pos hmax]
      rfl
    · next hmax =>
      simp only [inline, String.toList_append, String.reduceToList, List.cons_append, List.nil_append,
        ofChars, hparse, if_neg hmax]

end TagForm

namespace Value

open Tagged TagForm

variable {objects : Objects} {leaf : ObjectRef Value → Tagged}

mutual

theorem exists_tagForm : ∀ value : Value, (∀ ref ∈ value.refs, objects.Spells leaf ref) →
    ∃ form, value.tagForm objects = .ok form ∧ form.Spells leaf value
  | null, _ => ⟨_, rfl, spells_null⟩
  | bool true, _ | bool false, _ => ⟨_, rfl, spells_text rfl fun _ _ => rfl⟩
  | int n, _ => ⟨_, rfl, spells_text rfl fun fuel _ => by
      simp [ofChars, Numeral.read_intText, spelled]⟩
  | float x, _ => ⟨_, rfl, spells_text rfl fun fuel _ => by
      simp [ofChars, decimalText, Decimal.read_render, spelled]⟩
  | str s, _ => ⟨_, rfl, spells_text rfl fun fuel _ => by simp [ofChars, spelled]⟩
  | list items, h => by
    obtain ⟨forms, hforms, hplain, hlevels, hread⟩ := exists_itemForms items h
    exact ⟨.list forms, by rw [tagForm, hforms]; rfl, spells_list hplain hlevels hread⟩
  | record fields, h => by
    obtain ⟨pairs, hpairs, hsealed, hread⟩ := exists_fieldForms fields h
    refine ⟨.text ("os:" ++ ",".intercalate pairs), by rw [tagForm, hpairs]; rfl,
      spells_text rfl fun fuel hfuel => ?_⟩
    have hshort : ∀ pair ∈ pairs, pair.length < fuel := by
      intro pair hpair
      have := length_le_intercalate hpair
      rw [String.length_append, show "os:".length = 3 from rfl] at hfuel
      omega
    have hparts := (ofPairs_intercalate (ofChars fuel) hsealed).trans (hread fuel hshort)
    rw [String.toList_append]
    exact congrArg Tagged.record hparts
  | object ref, h => by
    obtain ⟨s, hs, hread⟩ := h ref (List.mem_singleton_self ref)
    exact ⟨.text s, hs, spells_text rfl fun fuel _ => hread fuel⟩

theorem exists_itemForms : ∀ items : List Value, (∀ ref ∈ refsItems items, objects.Spells leaf ref) →
    ∃ forms, itemForms objects items = .ok forms ∧ Json.EverywhereItems Json.IsPlain forms ∧
      Json.itemLevels forms = itemLevels items ∧
      ∀ read, Json.EverywhereItems (ReadBy read) forms →
        ofItems read forms = spelledItems leaf items
  | [], _ => ⟨[], rfl, trivial, rfl, fun _ _ => rfl⟩
  | item :: rest, h => by
    rw [refsItems, List.forall_mem_append] at h
    obtain ⟨form, hform, hspells⟩ := exists_tagForm item h.1
    obtain ⟨forms, hforms, hplain, hlevels, hread⟩ := exists_itemForms rest h.2
    refine ⟨form.json :: forms, by rw [itemForms, hform, hforms]; rfl, ⟨hspells.plain, hplain⟩, ?_, ?_⟩
    · rw [Json.itemLevels, itemLevels, hspells.levels_eq, hlevels]
    · rintro read ⟨hitem, hrest⟩
      rw [ofItems, spelledItems, hspells.ofJsonWith_eq read hitem, hread read hrest]

theorem exists_fieldForms : ∀ fields : List (String × Value),
    (∀ ref ∈ refsFields fields, objects.Spells leaf ref) →
    ∃ pairs, fieldForms objects fields = .ok pairs ∧
      (∀ pair ∈ pairs, Text.Sealed ',' pair.toList ∧ Text.isAllBlank pair.toList = false) ∧
      ∀ fuel, (∀ pair ∈ pairs, pair.length < fuel) →
        pairs.map (ofPair (ofChars fuel) ∘ String.toList) = spelledFields leaf fields
  | [], _ => ⟨[], rfl, nofun, fun _ _ => rfl⟩
  | (name, value) :: rest, h => by
    rw [refsFields, List.forall_mem_append] at h
    obtain ⟨form, hform, hspells⟩ := exists_tagForm value h.1
    obtain ⟨pairs, hpairs, hsealed, hread⟩ := exists_fieldForms rest h.2
    refine ⟨pairText name form.inline :: pairs, by rw [fieldForms, hform, hpairs]; rfl, ?_, ?_⟩
    · rw [List.forall_mem_cons]
      exact ⟨⟨sealed_pair name form.inline, isAllBlank_pair name form.inline⟩, hsealed⟩
    · intro fuel hfuel
      rw [List.forall_mem_cons] at hfuel
      have hinline := hspells.ofChars_eq fuel
        (Nat.lt_of_le_of_lt (length_le_pair name form.inline) hfuel.1)
      rw [List.map_cons, Function.comp_apply, ofPair_pairText, hinline, hread fuel hfuel.2]
      rfl

end

end Value

end DurableScript
