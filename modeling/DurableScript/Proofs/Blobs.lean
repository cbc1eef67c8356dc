import DurableScript.Proofs.RoundTrip

namespace DurableScript

@[ext]
structure Blob where
  typeName : String
  payload : String

namespace Blob

def chars (blob : Blob) : List Char := blob.typeName.toList ++ ':' :: blob.payload.toList

/-- The blob as it is read: its text is divided at the first colon. -/
def heard (blob : Blob) : Blob :=
  ⟨String.ofList (blob.chars.takeWhile (· != ':')), String.ofList (blob.chars.dropWhile (· != ':')).tail⟩

theorem dropWhile_chars_ne_nil (blob : Blob) : blob.chars.dropWhile (· != ':') ≠ [] := by
  intro h
  have hall := List.dropWhile_eq_nil_iff.1 h ':' (by simp [chars])
  exact absurd hall (by decide)

theorem ofBlob_chars (text : List Char) (blob : Blob) :
    Tagged.ofBlob text blob.chars = .blob blob.heard.typeName blob.heard.payload := by
  have hne := blob.dropWhile_chars_ne_nil
  unfold Tagged.ofBlob heard
  split
  · next h => exact absurd h hne
  · next h => rw [h]; rfl

theorem heard_eq_iff (blob : Blob) : blob.heard = blob ↔ ':' ∉ blob.typeName.toList := by
  constructor
  · intro h hmem
    have htype : blob.chars.takeWhile (· != ':') = blob.typeName.toList := by
      conv_rhs => rw [← h]
      exact String.toList_ofList.symm
    rw [← htype] at hmem
    exact absurd (List.mem_takeWhile_imp hmem) (by decide)
  · intro hmem
    have hall : ∀ c ∈ blob.typeName.toList, (c != ':') = true := by
      intro c hc
      rw [bne_iff_ne]
      rintro rfl
      exact hmem hc
    have htake : blob.chars.takeWhile (· != ':') = blob.typeName.toList := by
      rw [chars, List.takeWhile_append_of_pos hall]
      simp
    have hdrop : (blob.chars.dropWhile (· != ':')).tail = blob.payload.toList := by
      rw [chars, List.dropWhile_append_of_pos hall]
      simp
    rw [heard, htake, hdrop, String.ofList_toList, String.ofList_toList]

end Blob

namespace Objects

variable {objects : Objects} {ref : ObjectRef Value}

def blob? (objects : Objects) (ref : ObjectRef Value) : Option Blob :=
  match objects.persisted ref with
  | some (.blob payload) => some ⟨(objects.typeName? ref).getD "object", payload⟩
  | _ => none

theorem tagForm_of_blob? {blob : Blob} (h : objects.blob? ref = some blob) :
    objects.tagForm ref = .ok (.text ("j:" ++ blob.typeName ++ ":" ++ blob.payload)) ∧
      objects.tagged ref = .blob blob.typeName blob.payload := by
  unfold blob? at h
  split at h
  · next hpersisted =>
    cases h
    exact ⟨by rw [tagForm, hpersisted], by rw [tagged, Value.tagged, hpersisted]⟩
  · cases h

theorem exists_reference_of_blob?_eq_none (h : objects.blob? ref = none)
    (hkept : objects.persisted ref ≠ none) : ∃ id, objects.persisted ref = some (.reference id) := by
  unfold blob? at h
  split at h
  · cases h
  · next hother =>
    obtain ⟨_ | payload, hpersisted⟩ := Option.ne_none_iff_exists'.1 hkept
    · exact ⟨_, hpersisted⟩
    · exact absurd hpersisted (hother payload)

def heard (objects : Objects) (ref : ObjectRef Value) : Tagged :=
  match objects.blob? ref with
  | some blob => .blob blob.heard.typeName blob.heard.payload
  | none => objects.tagged ref

theorem spells_heard (hkept : objects.persisted ref ≠ none) : objects.Spells objects.heard ref := by
  cases hblob : objects.blob? ref with
  | none =>
    obtain ⟨id, hid⟩ := exists_reference_of_blob?_eq_none hblob hkept
    obtain ⟨s, hs, hread⟩ := spells_of_reference hid
    exact ⟨s, hs, fun fuel => by rw [hread, heard, hblob]⟩
  | some blob =>
    have hchars : ("j:" ++ blob.typeName ++ ":" ++ blob.payload).toList = 'j' :: ':' :: blob.chars := by
      simp [Blob.chars]
    refine ⟨_, (tagForm_of_blob? hblob).1, fun fuel => ?_⟩
    rw [hchars, heard, hblob]
    exact blob.ofBlob_chars _

theorem heard_eq_tagged_iff : objects.heard ref = objects.tagged ref ↔
    ∀ blob ∈ objects.blob? ref, ':' ∉ blob.typeName.toList := by
  cases hblob : objects.blob? ref with
  | none => simp [heard, hblob]
  | some blob =>
    simp only [heard, hblob, (tagForm_of_blob? hblob).2, Tagged.blob.injEq, ← Blob.ext_iff,
      Blob.heard_eq_iff, Option.mem_some, forall_eq']

end Objects

def Sources.decode? (sources : Sources) (blob : Blob) : Option (Except String (HostObject Value)) :=
  (Table.find? blob.typeName sources.blobs).map fun decode => decode blob.payload

namespace Restoring

variable {sources others : Sources} {source : Nat} {objects : Objects} {ref : ObjectRef Value}
  {ready : Objects → Prop} {R : ObjectRef Value → ObjectRef Value → Prop}

theorem blob_eq (sources : Sources) (blob : Blob) :
    Restoring.blob sources blob.typeName blob.payload =
      match sources.decode? blob with
      | none => throw (.unknownBlobType blob.typeName)
      | some (.error message) => throw (.blob blob.typeName message)
      | some (.ok object) => adopt object := by
  unfold Restoring.blob Sources.decode?
  cases Table.find? blob.typeName sources.blobs with
  | none => rfl
  | some decode =>
    simp only [Option.map_some]
    cases decode blob.payload <;> rfl

theorem restore_heard_congr (hkept : objects.persisted ref ≠ none)
    (hdeferred : others.deferred = sources.deferred)
    (h : ∀ blob ∈ objects.blob? ref, others.decode? blob.heard = sources.decode? blob.heard) :
    (objects.heard ref).restore others source = (objects.heard ref).restore sources source := by
  cases hblob : objects.blob? ref with
  | none =>
    obtain ⟨id, hid⟩ := Objects.exists_reference_of_blob?_eq_none hblob hkept
    simp only [Objects.heard, hblob, Objects.tagged, Value.tagged, hid, Tagged.restore, reference,
      hdeferred]
  | some blob =>
    simp only [Objects.heard, hblob, Tagged.restore, blob_eq, h blob hblob]

theorem reads_adopt (hready : ∀ store, ready store → ready { store with issued := store.issued + 1 })
    (object : HostObject Value) :
    (adopt object).Reads ready fun value => ∃ serial, value = .object (.ready serial object) :=
  fun store hstore => ⟨_, _, gives_adopt_iff.2 ⟨rfl, rfl⟩, ⟨Nat.le_refl _, rfl⟩, hready store hstore,
    store.issued, rfl⟩

theorem restores_heard (hkept : objects.persisted ref ≠ none)
    (hready : ∀ store, ready store → ready { store with issued := store.issued + 1 })
    (hfinds : Finds ready sources source objects R ref)
    (h : ∀ blob ∈ objects.blob? ref, ∃ object,
      sources.decode? blob.heard = some (.ok object) ∧ ∀ serial, R ref (.ready serial object)) :
    Restores ready sources source objects.heard R ref := by
  cases hblob : objects.blob? ref with
  | none =>
    obtain ⟨id, hid⟩ := Objects.exists_reference_of_blob?_eq_none hblob hkept
    have hrestores := hfinds.restores hid
    rwa [Restores, ← show objects.heard ref = objects.tagged ref by rw [Objects.heard, hblob]]
      at hrestores
  | some blob =>
    obtain ⟨object, hdecode, hR⟩ := h blob hblob
    simp only [Restores, Objects.heard, hblob, Tagged.restore, blob_eq, hdecode]
    refine (reads_adopt hready object).mono ?_
    rintro _ ⟨serial, rfl⟩
    exact ⟨_, rfl, hR serial⟩

end Restoring

namespace Value

variable {leaf leaf' : ObjectRef Value → Tagged} {sources others : Sources} {source : Nat}

open Tagged

mutual

theorem spelled_eq_iff : ∀ {value : Value}, value.Shallow →
    (value.spelled leaf = value.spelled leaf' ↔ ∀ ref ∈ value.refs, leaf ref = leaf' ref)
  | null, _ | bool _, _ | int _, _ | float _, _ | str _, _ => by simp [spelled, refs]
  | list items, h => by rw [spelled, spelled, Tagged.list.injEq, spelledItems_eq_iff h, refs]
  | record fields, h => by rw [spelled, spelled, Tagged.record.injEq, spelledFields_eq_iff h, refs]
  | object ref, _ => by simp [spelled, refs]

theorem spelledItems_eq_iff : ∀ {items : List Value}, ShallowItems items →
    (spelledItems leaf items = spelledItems leaf' items ↔ ∀ ref ∈ refsItems items, leaf ref = leaf' ref)
  | [], _ => by simp [spelledItems, refsItems]
  | item :: rest, h => by
    rw [spelledItems, spelledItems, List.cons.injEq, spelled_eq_iff h.1, spelledItems_eq_iff h.2,
      refsItems, List.forall_mem_append]

theorem spelledFields_eq_iff : ∀ {fields : List (String × Value)}, ShallowFields fields →
    (spelledFields leaf fields = spelledFields leaf' fields ↔
      ∀ ref ∈ refsFields fields, leaf ref = leaf' ref)
  | [], _ => by simp [spelledFields, refsFields]
  | (name, value) :: rest, h => by
    rw [spelledFields, spelledFields, if_pos h.1.2, if_pos h.1.2, List.cons.injEq, Prod.mk.injEq,
      spelled_eq_iff h.1.1, spelledFields_eq_iff h.2, refsFields, List.forall_mem_append]
    simp

end

mutual

theorem restore_spelled_congr : ∀ value : Value,
    (∀ ref ∈ value.refs, (leaf ref).restore others source = (leaf ref).restore sources source) →
    (value.spelled leaf).restore others source = (value.spelled leaf).restore sources source
  | null, _ | bool _, _ | int _, _ | float _, _ | str _, _ => rfl
  | list items, h => by rw [spelled, restore, restore, restoreItems_spelled_congr items h]
  | record fields, h => by rw [spelled, restore, restore, restoreFields_spelled_congr fields [] h]
  | object ref, h => h ref (List.mem_singleton_self ref)

theorem restoreItems_spelled_congr : ∀ items : List Value,
    (∀ ref ∈ refsItems items, (leaf ref).restore others source = (leaf ref).restore sources source) →
    restoreItems others source (spelledItems leaf items) =
      restoreItems sources source (spelledItems leaf items)
  | [], _ => rfl
  | item :: rest, h => by
    rw [refsItems, List.forall_mem_append] at h
    rw [spelledItems, restoreItems, restoreItems, restore_spelled_congr item h.1,
      restoreItems_spelled_congr rest h.2]

theorem restoreFields_spelled_congr : ∀ (fields : List (String × Value)) (done : Table Value),
    (∀ ref ∈ refsFields fields, (leaf ref).restore others source = (leaf ref).restore sources source) →
    restoreFields others source done (spelledFields leaf fields) =
      restoreFields sources source done (spelledFields leaf fields)
  | [], _, _ => rfl
  | (name, value) :: rest, done, h => by
    rw [refsFields, List.forall_mem_append] at h
    have hvalue : (if value.levels ≤ Json.maxLevels then value.spelled leaf
        else .fault .json).restore others source =
          (if value.levels ≤ Json.maxLevels then value.spelled leaf
            else .fault .json).restore sources source := by
      split
      · exact restore_spelled_congr value h.1
      · rfl
    rw [spelledFields, restoreFields, restoreFields, hvalue]
    exact bind_congr fun _ => restoreFields_spelled_congr rest _ h.2

end

end Value

/-- A value whose host objects can be kept is written, and a blob in it is read as its text divided at
the first colon. So the value comes back with all its objects still to be found exactly if no type
name of a blob has a colon. Reading depends on the decoders only in what they make of the blobs as
they are read, and succeeds with the objects that they make, each in its place. -/
theorem blobs_reach_their_decoders_iff_no_colon {objects : Objects} {value : Value}
    (hnamed : value.WellNamed) (hshallow : value.Shallow)
    (hkept : ∀ ref ∈ value.refs, objects.persisted ref ≠ none) :
    ∃ json, value.toJson objects = .ok json ∧
      (Tagged.ofJson json = value.tagged objects ↔
        ∀ ref ∈ value.refs, ∀ blob ∈ objects.blob? ref, ':' ∉ blob.typeName.toList) ∧
      (∀ blob : Blob, blob.heard = blob ↔ ':' ∉ blob.typeName.toList) ∧
      ∀ (sources : Sources) (source : Nat),
        (∀ others : Sources, others.deferred = sources.deferred →
          (∀ ref ∈ value.refs, ∀ blob ∈ objects.blob? ref,
            others.decode? blob.heard = sources.decode? blob.heard) →
          Snapshot.restoreJson others source json = Snapshot.restoreJson sources source json) ∧
        ∀ (ready : Objects → Prop) (R : ObjectRef Value → ObjectRef Value → Prop),
          (∀ store, ready store → ready { store with issued := store.issued + 1 }) →
          (∀ ref ∈ value.refs, Restoring.Finds ready sources source objects R ref) →
          (∀ ref ∈ value.refs, ∀ blob ∈ objects.blob? ref, ∃ object,
            sources.decode? blob.heard = some (.ok object) ∧ ∀ serial, R ref (.ready serial object)) →
          (Snapshot.restoreJson sources source json).Reads ready (value.Matches R) := by
  obtain ⟨form, hform, hspells⟩ :=
    value.exists_tagForm fun ref href => Objects.spells_heard (hkept ref href)
  have hread : Tagged.ofJson form.json = value.spelled objects.heard :=
    hspells.ofJsonWith_eq _ (Tagged.everywhere_readBy_ofText form.json)
  refine ⟨form.json, by rw [Value.toJson, hform]; rfl, ?_, Blob.heard_eq_iff, fun sources source =>
    ⟨fun others hdeferred h => ?_, fun ready R hready hfinds h => ?_⟩⟩
  · rw [hread, ← hshallow.spelled_eq, Value.spelled_eq_iff hshallow]
    exact forall₂_congr fun ref _ => Objects.heard_eq_tagged_iff
  · rw [Snapshot.restoreJson, Snapshot.restoreJson, hread]
    exact value.restore_spelled_congr fun ref href =>
      Restoring.restore_heard_congr (hkept ref href) hdeferred (h ref href)
  · rw [Snapshot.restoreJson, hread]
    exact value.reads_restore hnamed hshallow fun ref href =>
      Restoring.restores_heard (hkept ref href) hready (hfinds ref href) (h ref href)

namespace Blob

def note (blob : Blob) : HostObject Value := ⟨blob.typeName, some (.blob blob.payload), [], blob.payload⟩

def decoders (typeNames : List String) : Sources where
  resolvers := []
  blobs := typeNames.map fun typeName => (typeName, fun payload => .ok (note ⟨typeName, payload⟩))
  deferred := true

def scattered : Value :=
  .record [("a:b,", .list [.object (.ready 0 (note ⟨"x,\\", "j:a:\"b\\,"⟩)),
      .record [("", .object (.ready 1 (note ⟨"", ":"⟩))), ("r", .object (.lazy 0 "o:1"))]]),
    ("c", .object (.ready 0 (note ⟨"x,\\", ""⟩)))]

end Blob

theorem scattered_blobs_reach_their_decoders : Blob.scattered.WellNamed ∧ Blob.scattered.Shallow ∧
      (∀ ref ∈ Blob.scattered.refs, Objects.empty.persisted ref ≠ none) ∧
      ∃ json, Blob.scattered.toJson .empty = .ok json ∧
        Tagged.ofJson json = Blob.scattered.tagged .empty ∧
        ∀ source, (Snapshot.restoreJson (Blob.decoders ["x,\\", ""]) source json).Reads
          (fun store => 0 ≤ store.cells.size) (Blob.scattered.Matches fun ref ref' =>
            ∀ blob ∈ Objects.empty.blob? ref, ∃ serial, ref' = .ready serial blob.note) := by
  have hnamed : Blob.scattered.WellNamed := by
    simp [Blob.scattered, Value.WellNamed, Value.WellNamedItems, Value.WellNamedFields,
      Table.Distinct, Table.keys]
  have hshallow : Blob.scattered.Shallow := by
    simp [Blob.scattered, Value.Shallow, Value.ShallowItems, Value.ShallowFields, Value.levels,
      Value.itemLevels, Json.maxLevels]
  have hkept : ∀ ref ∈ Blob.scattered.refs, Objects.empty.persisted ref ≠ none := by
    simp [Blob.scattered, Value.refs, Value.refsItems, Value.refsFields, Objects.persisted, Blob.note,
      Objects.found?, Objects.empty]
  have hcolon : ∀ ref ∈ Blob.scattered.refs, ∀ blob ∈ Objects.empty.blob? ref,
      ':' ∉ blob.typeName.toList := by
    simp [Blob.scattered, Value.refs, Value.refsItems, Value.refsFields, Objects.blob?,
      Objects.persisted, Blob.note, Objects.found?, Objects.empty, Objects.typeName?,
      Objects.content?]
  have hdecode : ∀ ref ∈ Blob.scattered.refs, ∀ blob ∈ Objects.empty.blob? ref,
      (Blob.decoders ["x,\\", ""]).decode? blob = some (.ok blob.note) := by
    simp [Blob.scattered, Value.refs, Value.refsItems, Value.refsFields, Objects.blob?,
      Objects.persisted, Blob.note, Objects.found?, Objects.empty, Objects.typeName?,
      Objects.content?, Sources.decode?, Blob.decoders, Table.find?]
  obtain ⟨json, hjson, hread, hheard, hrestore⟩ :=
    blobs_reach_their_decoders_iff_no_colon hnamed hshallow hkept
  refine ⟨hnamed, hshallow, hkept, json, hjson, hread.2 hcolon, fun source => ?_⟩
  refine (hrestore (Blob.decoders ["x,\\", ""]) source).2 _ _ (fun _ _ => Nat.zero_le _)
    (fun ref href id hid => ?_) fun ref href blob hblob => ⟨blob.note, ?_, ?_⟩
  · refine (Restoring.reads_reference rfl source id).mono ?_
    rintro _ ⟨cell, -, rfl⟩
    refine ⟨_, rfl, fun blob hblob => ?_⟩
    rw [Objects.blob?, hid] at hblob
    cases hblob
  · rw [(hheard blob).2 (hcolon ref href blob hblob)]
    exact hdecode ref href blob hblob
  · intro serial other hother
    cases hblob.symm.trans hother
    exact ⟨serial, rfl⟩

/-- The decoder for `a:b` is not found, and one for `a` gets part of the type name as payload. -/
theorem colon_in_type_name_misleads :
    (Value.object (.ready 0 (Blob.note ⟨"a:b", "hi"⟩))).toJson .empty = .ok (.str "j:a:b:hi") ∧
      ∀ source,
        Snapshot.restoreJson (Blob.decoders ["a:b"]) source (.str "j:a:b:hi") =
          throw (.unknownBlobType "a") ∧
        Snapshot.restoreJson (Blob.decoders ["a:b", "a"]) source (.str "j:a:b:hi") =
          Restoring.adopt (Blob.note ⟨"a", "b:hi"⟩) :=
  ⟨rfl, fun _ => ⟨rfl, rfl⟩⟩

end DurableScript
