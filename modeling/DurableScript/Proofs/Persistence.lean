import DurableScript.Compile
import DurableScript.Proofs.Sameness

namespace DurableScript

variable {envelope : Snapshot.Envelope} {objects : Objects} {execution : Execution}

open Restoring

theorem Execution.ofSnapshot_text (h : envelope.Readable)
    (hlevels : envelope.json.levels ≤ Json.maxLevels) (sources : Sources) (store : Objects) :
    (ofSnapshot sources envelope.json.text).run.run store =
      (Snapshot.restoreExecution sources store.sources.size envelope).run.run
        (store.addSource sources.resolvers).2 := by
  unfold ofSnapshot
  rw [envelope.parse?_text h hlevels]
  rfl

theorem Execution.exists_ofSnapshot {envelope : Snapshot.Envelope} (h : envelope.Readable)
    (hlevels : envelope.json.levels ≤ Json.maxLevels) {sources : Sources} (store : Objects)
    {P : Execution → Prop} (hyields : ∀ source,
      (Snapshot.restoreExecution sources source envelope).Yields store.cells.size P) :
    ∃ restored after, (ofSnapshot sources envelope.json.text).Gives store restored after ∧
      after.OpenFrom store.cells.size ∧ P restored := by
  obtain ⟨restored, after, hgives, hgrown, hrestored⟩ :=
    hyields store.sources.size (store.addSource sources.resolvers).2 (Nat.le_refl _)
  have hopen : (store.addSource sources.resolvers).2.OpenFrom store.cells.size :=
    store.openFrom_size
  refine ⟨restored, after, ?_, hopen.grown hgrown, hrestored⟩
  exact (ofSnapshot_text h hlevels sources store).trans hgives

theorem Execution.snapshot_eq_ok (h : Snapshot.writeExecution objects execution = .ok envelope) :
    execution.snapshot objects = .ok envelope.json.text := by
  rw [snapshot, h]
  rfl

theorem Execution.exists_ofSnapshot_self (htidy : execution.program.Tidy)
    (hkeep : execution.Keepable objects) (hfree : execution.ObjectFree) :
    ∃ envelope, Snapshot.writeExecution objects execution = .ok envelope ∧
      (envelope.json.levels ≤ Json.maxLevels → ∀ (sources : Sources) (store : Objects), ∃ after,
        (ofSnapshot sources envelope.json.text).Gives store execution after) := by
  obtain ⟨envelope, hwrite, hreadable, hrestore⟩ := Snapshot.exists_writeExecution htidy hkeep
  refine ⟨envelope, hwrite, fun hlevels sources store => ?_⟩
  obtain ⟨restored, after, hgives, -, hrestored⟩ := exists_ofSnapshot hreadable hlevels store
    fun source => hrestore sources source store.cells.size (.inr hfree)
  exact ⟨after, hrestored.eq_of_objectFree hfree ▸ hgives⟩

theorem Execution.RestoredAs.pendingWait?_eq {first : Nat} {restored : Execution}
    (h : execution.RestoredAs objects first restored) :
    restored.pendingWait? = execution.pendingWait? := by
  rw [pendingWait?, pendingWait?, instruction?, instruction?, h.program, h.pc]

/-- An execution of a compiled program whose values can be kept is written, and unless its text nests
too deep it is found in the text again: with unresolved references of the same ids in place of its
host objects when lookups are put off, and as it was when there are none. It is then written as the
same text. -/
theorem snapshot_restores_execution {tree : Node} {before : List Node} {objects : Objects}
    {execution : Execution}
    (hcompile : tree.compile before = .ok execution.program ∨
      tree.compileExpression before = .ok execution.program)
    (hkeep : execution.Keepable objects) :
    ∃ envelope, Snapshot.writeExecution objects execution = .ok envelope ∧
      execution.snapshot objects = .ok envelope.json.text ∧
      (envelope.json.levels ≤ Json.maxLevels → ∀ (sources : Sources) (store : Objects),
        (sources.deferred = true → ∃ restored after,
          (Execution.ofSnapshot sources envelope.json.text).Gives store restored after ∧
          execution.RestoredAs objects store.cells.size restored ∧
          after.OpenFrom store.cells.size ∧
          restored.pendingWait? = execution.pendingWait? ∧
          restored.snapshot after = .ok envelope.json.text) ∧
        (execution.ObjectFree → ∃ after,
          (Execution.ofSnapshot sources envelope.json.text).Gives store execution after ∧
          execution.snapshot after = .ok envelope.json.text ∧
          (execution.NanFree → execution.same after execution = true))) := by
  have htidy : execution.program.Tidy :=
    hcompile.elim Program.tidy_of_compile Program.tidy_of_compileExpression
  obtain ⟨envelope, hwrite, hreadable, hrestore⟩ := Snapshot.exists_writeExecution htidy hkeep
  refine ⟨envelope, hwrite, Execution.snapshot_eq_ok hwrite, fun hlevels sources store => ⟨?_, ?_⟩⟩
  · intro hdeferred
    obtain ⟨restored, after, hgives, hopen, hrestored⟩ :=
      Execution.exists_ofSnapshot hreadable hlevels store fun source =>
        hrestore sources source store.cells.size (.inl hdeferred)
    have hagain := (Snapshot.writeExecution_eq hopen hrestored).trans hwrite
    exact ⟨restored, after, hgives, hrestored, hopen, hrestored.pendingWait?_eq,
      Execution.snapshot_eq_ok hagain⟩
  · intro hfree
    obtain ⟨restored, after, hgives, hopen, hrestored⟩ :=
      Execution.exists_ofSnapshot hreadable hlevels store fun source =>
        hrestore sources source store.cells.size (.inr hfree)
    have hagain := (Snapshot.writeExecution_eq hopen hrestored).trans hwrite
    cases hrestored.eq_of_objectFree hfree
    exact ⟨after, hgives, Execution.snapshot_eq_ok hagain,
      Execution.same_self after htidy hkeep⟩

namespace Execution

def amidCall : Execution where
  program := ⟨#[⟨.pushValue (.int 7), none⟩, ⟨.call "ask" 1 0, none⟩], []⟩
  globals := ⟨[("user", .object (.ready 0 ⟨"user", some (.reference "u:1,2"), [], "user"⟩)),
    ("log", .record [("a,b:c", .list [.null, .record [("k", .str "x:y")]])])], [], .null, none⟩
  calls := [⟨[("n", .int 3)], [.list [.int 7], .bool true], .str "s", some 1⟩]
  pc := 1
  steps := 12
  lastInterrupt := some .after

theorem keepable_amidCall : amidCall.Keepable .empty where
  size_lt := by decide
  pc_le := by decide
  steps_lt := by decide
  frames := by
    refine List.forall_mem_cons.2 ⟨⟨?_, ?_, ?_, nofun⟩, List.forall_mem_singleton.2 ⟨?_, ?_, ?_, ?_⟩⟩
    · simp [amidCall, Table.Distinct, Table.keys]
    · decide
    · simp [Frame.values, amidCall, Value.Keepable, Value.KeepableItems, Value.KeepableFields,
        Value.Shallow, Value.ShallowItems, Value.ShallowFields, Value.levels, Value.itemLevels,
        Objects.persisted, Table.Distinct, Table.keys, Json.maxLevels]
    · simp [Table.Distinct, Table.keys]
    · decide
    · simp [Frame.values, Value.Keepable, Value.KeepableItems, Value.Shallow, Value.ShallowItems]
    · simp

end Execution

theorem snapshot_restores_execution_amidCall :
    (Node.root [.call "ask" [.int 7 none] none] none).compile [] = .ok Execution.amidCall.program ∧
      Execution.amidCall.Keepable .empty ∧ ∃ text restored after,
        Execution.amidCall.snapshot .empty = .ok text ∧
        (Execution.ofSnapshot ⟨[], [], true⟩ text).Gives .empty restored after ∧
        Execution.amidCall.RestoredAs .empty 0 restored ∧ restored.snapshot after = .ok text := by
  have hcompile : (Node.root [.call "ask" [.int 7 none] none] none).compile [] =
      .ok Execution.amidCall.program := rfl
  refine ⟨hcompile, Execution.keepable_amidCall, ?_⟩
  obtain ⟨envelope, hwrite, hsnapshot, hrestore⟩ :=
    snapshot_restores_execution (.inl hcompile) Execution.keepable_amidCall
  have hlevels : envelope.json.levels ≤ Json.maxLevels := by
    cases hwrite
    decide
  obtain ⟨restored, after, hgives, hrestored, -, -, hagain⟩ :=
    (hrestore hlevels ⟨[], [], true⟩ .empty).1 rfl
  exact ⟨_, restored, after, hsnapshot, hgives, hrestored, hagain⟩

def Value.nested : Nat → Value
  | 0 => .list []
  | depth + 1 => .list [nested depth]

namespace Value

theorem levels_nested (depth : Nat) : (nested depth).levels = depth + 1 := by
  induction depth with
  | zero => rfl
  | succ depth ih => rw [nested, levels, itemLevels, ih]; rfl

theorem keepable_nested (objects : Objects) (depth : Nat) : (nested depth).Keepable objects := by
  induction depth with
  | zero => trivial
  | succ depth ih => exact ⟨ih, trivial⟩

theorem exists_tagForm_deep (objects : Objects) {depth : Nat} (h : Json.maxLevels ≤ depth) :
    ∃ text, (record [("k", nested depth)]).tagForm objects = .ok (.text text) ∧
      Tagged.ofText text = .record [("k", .fault .json)] := by
  have hkeep : (record [("k", nested depth)]).Keepable objects :=
    ⟨List.nodup_cons.2 ⟨nofun, .nil⟩, keepable_nested objects depth, trivial⟩
  obtain ⟨form, hform, hspells⟩ := exists_tagForm _ hkeep.spells
  obtain ⟨text, rfl⟩ : ∃ text, form = .text text := by
    rw [tagForm] at hform
    obtain ⟨pairs, -, hpairs⟩ := Except.bind_eq_ok.1 hform
    cases hpairs
    exact ⟨_, rfl⟩
  have hdeep : ¬ (nested depth).levels ≤ Json.maxLevels := by
    rw [levels_nested]
    omega
  have hread := hspells.ofJsonWith_eq _ (Tagged.everywhere_readBy_ofText (.str text))
  rw [spelled, spelledFields, spelledFields, if_neg hdeep] at hread
  exact ⟨text, hform, hread⟩

end Value

namespace Execution

def listInRecord (depth : Nat) : Execution :=
  { start .empty with globals := ⟨[("x", .record [("k", .nested depth)])], [], .null, none⟩ }

def oneVariable (text : String) : Snapshot.Envelope :=
  ⟨Snapshot.version, [⟨.obj [("x", .str text)], .arr [], .null, none⟩], [], .obj [],
    .str ("i:" ++ Value.intText 0), 0, none⟩

theorem readable_oneVariable (text : String) : (oneVariable text).Readable where
  version := show 1 < 2 ^ 64 by decide
  frames := List.forall_mem_singleton.2
    ⟨⟨List.nodup_cons.2 ⟨nofun, .nil⟩, trivial, trivial⟩, ⟨trivial, trivial⟩, trivial, nofun⟩
  instructions := nofun
  procedures := ⟨Table.distinct_nil, trivial⟩
  index := trivial
  steps := show 0 < 2 ^ 64 by decide
  lastInterrupt := nofun

theorem writeExecution_listInRecord {objects : Objects} {depth : Nat} {text : String}
    (h : (Value.record [("k", .nested depth)]).tagForm objects = .ok (.text text)) :
    Snapshot.writeExecution objects (listInRecord depth) = .ok (oneVariable text) := by
  have hvars : Snapshot.writeVariables objects [("x", .record [("k", .nested depth)])] =
      .ok [("x", .str text)] := by
    rw [Snapshot.writeVariables, Value.toJson, h]
    rfl
  have hframe : Snapshot.writeFrame objects (listInRecord depth).globals =
      .ok ⟨.obj [("x", .str text)], .arr [], .null, none⟩ := by
    rw [Snapshot.writeFrame, listInRecord, hvars]
    rfl
  rw [Snapshot.writeExecution,
    show (listInRecord depth).frames = [(listInRecord depth).globals] from rfl, List.mapM_cons, hframe]
  rfl

theorem restoreExecution_oneVariable {text : String} {e : FormatError}
    (h : Tagged.ofText text = .record [("k", .fault e)]) (sources : Sources) (source : Nat)
    (store : Objects) :
    (Snapshot.restoreExecution sources source (oneVariable text)).run.run store =
      (.error e, store) := by
  have hjson : Snapshot.restoreJson sources source (.str text) = throw e := by
    rw [Snapshot.restoreJson, Tagged.ofJson, Tagged.ofJsonWith, h]
    rfl
  have hvars : Snapshot.restoreVariables sources source [] [("x", .str text)] = throw e := by
    rw [Snapshot.restoreVariables, hjson]
    rfl
  have hframes : Snapshot.restoreFrames sources source (oneVariable text).frames = throw e := by
    show (Snapshot.restoreVariables sources source [] [("x", .str text)] >>= _) >>= _ = _
    rw [hvars]
    rfl
  rw [Snapshot.restoreExecution, hframes]
  rfl

theorem listInRecord_refused {depth : Nat} (h : Json.maxLevels ≤ depth) (objects : Objects) :
    ∃ envelope, Snapshot.writeExecution objects (listInRecord depth) = .ok envelope ∧
      envelope.json.levels = 4 ∧ ∀ (sources : Sources) (store : Objects),
        ((ofSnapshot sources envelope.json.text).run.run store).1 = .error .json := by
  obtain ⟨text, htext, hread⟩ := Value.exists_tagForm_deep objects h
  refine ⟨oneVariable text, writeExecution_listInRecord htext, rfl, fun sources store => ?_⟩
  rw [ofSnapshot_text (readable_oneVariable text) (show 4 ≤ 127 by decide),
    restoreExecution_oneVariable hread]

end Execution

/-- No list of the text nests too deep, but one that is kept inside a record does. -/
theorem list_in_record_lost :
    (Node.root [] none).compile [] = .ok (Execution.listInRecord 127).program ∧
      (∀ frame ∈ (Execution.listInRecord 127).frames, Table.Distinct frame.vars ∧
        (∀ name ∈ Table.keys frame.vars, ¬ ['s', ':'] <+: name.toList) ∧
        ∀ value ∈ frame.values, value.Keepable .empty) ∧
      ∃ envelope, Snapshot.writeExecution .empty (Execution.listInRecord 127) = .ok envelope ∧
        envelope.json.levels ≤ Json.maxLevels ∧
        ((Execution.ofSnapshot ⟨[], [], true⟩ envelope.json.text).run.run .empty).1 = .error .json := by
  refine ⟨rfl, List.forall_mem_singleton.2 ⟨?_, by decide, ?_⟩, ?_⟩
  · simp [Execution.listInRecord, Table.Distinct, Table.keys]
  · simp [Frame.values, Execution.listInRecord, Value.Keepable, Value.KeepableFields,
      Value.keepable_nested, Table.Distinct, Table.keys]
  · obtain ⟨envelope, hwrite, hlevels, hrefused⟩ :=
      Execution.listInRecord_refused (Nat.le_refl 127) .empty
    exact ⟨envelope, hwrite, by rw [hlevels]; decide, hrefused _ _⟩

end DurableScript
