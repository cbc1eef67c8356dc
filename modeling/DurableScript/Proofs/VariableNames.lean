import DurableScript.Proofs.Nesting
import Mathlib.Data.Finset.Max

namespace DurableScript

namespace Restoring

variable {α : Type} {x : Restoring α} {P : Prop} {a b : α}

theorem pure_inj : (pure a : Restoring α) = pure b ↔ a = b := by
  refine ⟨fun h => ?_, congrArg pure⟩
  cases congrFun h .empty
  rfl

theorem throw_ne_pure {error : FormatError} : (throw error : Restoring α) ≠ pure a :=
  fun h => nomatch congrFun h .empty

theorem Decides.eq_pure_iff (h : x.Decides P a) : x = pure b ↔ P ∧ a = b := by
  by_cases hP : P
  · rw [h.eq_pure hP, pure_inj, and_iff_right hP]
  · rw [h.eq_throw hP]
    exact iff_of_false throw_ne_pure fun hpair => hP hpair.1

end Restoring

namespace Snapshot

def BearsTag (name : String) : Prop := ['s', ':'] <+: name.toList

instance : DecidablePred BearsTag := fun name => inferInstanceAs (Decidable (_ <+: name.toList))

theorem untagName_append (name : String) : untagName ("s:" ++ name) = name := by
  simp [untagName]

theorem BearsTag.eq_append {name : String} (h : BearsTag name) : name = "s:" ++ untagName name := by
  obtain ⟨rest, hrest⟩ := h
  obtain rfl : name = "s:" ++ String.ofList rest := by
    rw [← String.toList_inj, ← hrest]
    simp
  rw [untagName_append]

theorem BearsTag.length_eq {name : String} (h : BearsTag name) :
    name.length = (untagName name).length + 2 := by
  conv_lhs => rw [h.eq_append, String.length_append, Nat.add_comm]
  rfl

end Snapshot

namespace Frame

open Snapshot Restoring

variable {frame : Frame}

theorem keys_map_untagName (vars : Table Value) :
    Table.keys (vars.map fun (name, value) => (untagName name, value)) =
      (Table.keys vars).map untagName := by
  simp [Table.keys]

theorem exists_of_mem_keys_untagged {name : String} (h : name ∈ Table.keys frame.untagged.vars) :
    ∃ other ∈ Table.keys frame.vars, untagName other = name := by
  obtain ⟨entry, hentry, rfl⟩ := List.mem_map.1 h
  have hkey := List.mem_map_of_mem (f := Prod.fst) (Table.mem_of_mem_ofPairs hentry)
  rwa [← Table.keys, keys_map_untagName, List.mem_map] at hkey

theorem untagged_vars_eq_map_iff :
    frame.untagged.vars = frame.vars.map (fun (name, value) => (untagName name, value)) ↔
      ((Table.keys frame.vars).map untagName).Nodup := by
  rw [← keys_map_untagName]
  refine ⟨fun h => ?_, Table.ofPairs_of_distinct⟩
  rw [← h]
  exact Table.distinct_ofPairs _

theorem untagged_vars_eq_iff (h : Table.Distinct frame.vars) :
    frame.untagged.vars = frame.vars ↔ ∀ name ∈ Table.keys frame.vars, ¬ BearsTag name := by
  constructor
  · intro heq name hname htag
    let tagged := (Table.keys frame.vars).toFinset.filter BearsTag
    have hmem {name : String} : name ∈ tagged ↔ name ∈ Table.keys frame.vars ∧ BearsTag name := by
      rw [Finset.mem_filter, List.mem_toFinset]
    obtain ⟨longest, hlongest, hmax⟩ :=
      tagged.exists_max_image String.length ⟨name, hmem.2 ⟨hname, htag⟩⟩
    rw [hmem, ← heq] at hlongest
    obtain ⟨other, hother, rfl⟩ := exists_of_mem_keys_untagged hlongest.1
    by_cases hbears : BearsTag other
    · have hle := hmax other (hmem.2 ⟨hother, hbears⟩)
      have hlength := hbears.length_eq
      omega
    · rw [untagName_of_not_isPrefix hbears] at hlongest
      exact hbears hlongest.2
  · intro hnames
    have hvars : frame.vars.map (fun (name, value) => (untagName name, value)) = frame.vars := by
      conv_rhs => rw [← List.map_id frame.vars]
      refine List.map_congr_left fun (name, value) hentry => ?_
      exact Prod.ext (untagName_of_not_isPrefix (hnames name (List.mem_map_of_mem hentry))) rfl
    rw [untagged, hvars, Table.ofPairs_of_distinct h]

theorem untagged_eq_iff (h : Table.Distinct frame.vars) :
    frame.untagged = frame ↔ ∀ name ∈ Table.keys frame.vars, ¬ BearsTag name := by
  rw [← untagged_vars_eq_iff h]
  exact ⟨congrArg Frame.vars, fun heq => congrArg (fun vars => { frame with vars }) heq⟩

theorem find?_untagged (name : String) : Table.find? name frame.untagged.vars =
      (frame.vars.reverse.find? fun entry => untagName entry.1 = name).map Prod.snd := by
  rw [untagged, Table.find?_ofPairs, ← List.map_reverse, List.find?_map, Option.map_map]
  rfl

end Frame

/-- A frame without host objects is written whatever its variables are called. It comes back exactly
as it was if and only if no list in a record nests too deep and no name bears the tag of a text: the
tag is taken off each name, and variables that get the same name so are merged. -/
theorem frame_returns_iff_names_bear_no_tag {objects : Objects} {frame : Frame}
    (h : frame.Formed objects) (hfree : frame.ObjectFree) :
    ∃ form, Snapshot.writeFrame objects frame = .ok form ∧ ∀ sources source,
      (Snapshot.restoreFrame sources source form = pure frame ↔
        (∀ value ∈ frame.values, value.Shallow) ∧
          ∀ name ∈ Table.keys frame.vars, ¬ Snapshot.BearsTag name) ∧
      ((∀ value ∈ frame.values, value.Shallow) →
        ∃ vars, Snapshot.restoreFrame sources source form = pure { frame with vars } ∧
          (vars = frame.vars.map (fun (name, value) => (Snapshot.untagName name, value)) ↔
            ((Table.keys frame.vars).map Snapshot.untagName).Nodup) ∧
          ∀ name, Table.find? name vars =
            (frame.vars.reverse.find? fun entry => Snapshot.untagName entry.1 = name).map Prod.snd) ∧
      (¬ (∀ value ∈ frame.values, value.Shallow) →
        Snapshot.restoreFrame sources source form = throw .json) := by
  obtain ⟨form, hwrite, -⟩ := Snapshot.exists_writeFrame h
  refine ⟨form, hwrite, fun sources source => ?_⟩
  have hdecides := @Snapshot.decides_restoreFrame _ sources source _ _ hwrite h hfree
  refine ⟨?_, fun hshallow => ?_, hdecides.eq_throw⟩
  · rw [hdecides.eq_pure_iff, Frame.untagged_eq_iff h.distinct]
  · exact ⟨frame.untagged.vars, hdecides.eq_pure hshallow, Frame.untagged_vars_eq_map_iff,
      Frame.find?_untagged⟩

namespace Frame

def ofVars (vars : Table Value) : Frame := ⟨vars, [], .null, none⟩

def nearTags : Frame :=
  ofVars [("", .int 1), ("s", .str "s:x"), ("S:x", .list []), ("x:s:y", .null), (" s:x", .bool true),
    ("i:1", .record [("s:x", .int 2), ("x", .int 3)])]

end Frame

theorem frame_returns_near_tags : Frame.nearTags.Formed .empty ∧ Frame.nearTags.ObjectFree ∧
      ∃ form, Snapshot.writeFrame .empty Frame.nearTags = .ok form ∧ ∀ sources source,
        Snapshot.restoreFrame sources source form = pure Frame.nearTags := by
  have hformed : Frame.nearTags.Formed .empty := by
    refine ⟨?_, Frame.forall_mem_values.2 ⟨?_, nofun, trivial⟩, nofun⟩
    · exact (by decide : (Table.keys Frame.nearTags.vars).Nodup)
    · simp [Frame.nearTags, Frame.ofVars, Value.Keepable, Value.KeepableItems, Value.KeepableFields,
        Table.Distinct, Table.keys]
  have hfree : Frame.nearTags.ObjectFree :=
    Frame.forall_mem_values.2 ⟨by simp [Frame.nearTags, Frame.ofVars, Value.ObjectFree,
      Value.ObjectFreeItems, Value.ObjectFreeFields], nofun, trivial⟩
  obtain ⟨form, hwrite, hread⟩ := frame_returns_iff_names_bear_no_tag hformed hfree
  exact ⟨hformed, hfree, form, hwrite, fun sources source =>
    (hread sources source).1.2 ⟨by decide, by decide⟩⟩

/-- One of two variables is lost: their names differ in the tag only. -/
theorem tagged_variable_lost :
    ∃ form, Snapshot.writeFrame .empty (Frame.ofVars [("s:x", .int 1), ("x", .int 2)]) = .ok form ∧
      ∀ sources source, Snapshot.restoreFrame sources source form =
        pure (Frame.ofVars [("x", .int 2)]) :=
  ⟨_, rfl, fun _ _ => rfl⟩

end DurableScript
