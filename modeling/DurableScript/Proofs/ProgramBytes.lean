import DurableScript.Program.Binary
import DurableScript.Proofs.Addresses
import Mathlib.Algebra.Group.Nat.Defs

namespace DurableScript

namespace Bytes

variable {α β : Type} {read : Reader α} {bytes bytes' : List UInt8} {a : α}

/-- The bytes are taken off the front, whatever follows them, and spell `a`. -/
def Takes (read : Reader α) (bytes : List UInt8) (a : α) : Prop :=
  ∀ rest, read (bytes ++ rest) = some (a, rest)

theorem takes_pure (a : α) : Takes (pure a) [] a := fun _ => rfl

theorem Takes.bind {f : α → Reader β} {b : β} (h : Takes read bytes a) (hf : Takes (f a) bytes' b) :
    Takes (read >>= f) (bytes ++ bytes') b := by
  intro rest
  have hread : (read >>= f) (bytes ++ (bytes' ++ rest)) = f a (bytes' ++ rest) := by
    show (read (bytes ++ (bytes' ++ rest))).bind _ = _
    rw [h]
    rfl
  rw [List.append_assoc, hread, hf]

theorem Takes.bind_nil {f : α → Reader β} {b : β} (h : Takes read bytes a)
    (hf : Takes (f a) [] b) : Takes (read >>= f) bytes b := by
  have hbind := h.bind hf
  rwa [List.append_nil] at hbind

theorem Takes.map (h : Takes read bytes a) (g : α → β) :
    Takes (read >>= fun a => pure (g a)) bytes (g a) := h.bind_nil (takes_pure (g a))

theorem toNat_toUInt8 {n : Nat} (h : n < 256) : n.toUInt8.toNat = n := UInt8.toNat_ofNat_of_lt' h

theorem takes_takeNumber {lastByte room : Nat} (hlast : lastByte < 128) (more : Nat) {n : Nat}
    (h : n < (lastByte + 1) * 128 ^ room) :
    Takes (takeNumber lastByte (room + 1)) (numberWithin (more + (room + 1)) n) n := by
  intro rest
  -- On the bytes that are left; only the last of them is bounded by `lastByte`.
  induction room generalizing n with
  | zero =>
    rw [Nat.pow_zero, Nat.mul_one] at h
    have hbyte := toNat_toUInt8 (show n < 256 by omega)
    rw [Nat.zero_add, numberWithin, if_pos (by omega), List.singleton_append, takeNumber, hbyte,
      if_pos (by omega), if_neg (by omega)]
  | succ room ih =>
    rw [← Nat.add_assoc, numberWithin]
    split
    · next hn =>
      have hbyte := toNat_toUInt8 (show n < 256 by omega)
      rw [List.singleton_append, takeNumber, hbyte, if_pos hn, if_neg (by omega)]
    · have hbyte := toNat_toUInt8 (show n % 128 + 128 < 256 by omega)
      have hhigh : n / 128 < (lastByte + 1) * 128 ^ room := by
        rw [Nat.pow_succ, ← Nat.mul_assoc] at h
        exact Nat.div_lt_of_lt_mul (by rwa [Nat.mul_comm])
      rw [List.cons_append, takeNumber, hbyte, if_neg (by omega), ih hhigh]
      simp only [Option.some.injEq, Prod.mk.injEq, and_true]
      omega

theorem takes_readNumber {n : Nat} (h : n < 2 ^ 64) : Takes readNumber (number n) n :=
  takes_takeNumber (by decide) 0 h

theorem takes_readSmall {n : Nat} (h : n < 2 ^ 32) : Takes readSmall (number n) n :=
  takes_takeNumber (by decide) 5 h

theorem alternate_eq (i : Int) {n : Nat}
    (h : n = if 0 ≤ i then 2 * i.toNat else 2 * (-i).toNat - 1) :
    (if n % 2 = 0 then Int.ofNat (n / 2) else -Int.ofNat (n / 2) - 1) = i := by
  simp only [Int.ofNat_eq_natCast]
  split at h <;> split <;> omega

theorem takes_readSigned (n : Int64) : Takes readSigned (signed n) n := by
  have hlow := n.le_toInt
  have hhigh := n.toInt_lt
  have hlt : (if 0 ≤ n.toInt then 2 * n.toInt.toNat else 2 * (-n.toInt).toNat - 1) < 2 ^ 64 := by
    split <;> omega
  have hread := (takes_readNumber hlt).map fun n =>
    Int64.ofInt (if n % 2 = 0 then Int.ofNat (n / 2) else -Int.ofNat (n / 2) - 1)
  rwa [alternate_eq n.toInt rfl, n.ofInt_toInt] at hread

theorem takes_readByte (byte : UInt8) : Takes readByte [byte] byte := fun _ => rfl

theorem takes_readBool (b : Bool) : Takes readBool (bool b) b := by
  cases b <;> exact fun _ => rfl

theorem takes_readLittleEndian {count n : Nat} (h : n < 256 ^ count) :
    Takes (readLittleEndian count) (littleEndian count n) n := by
  induction count generalizing n with
  | zero =>
    obtain rfl : n = 0 := by omega
    exact takes_pure 0
  | succ count ih =>
    have hhigh : n / 256 < 256 ^ count := Nat.div_lt_of_lt_mul (by rwa [Nat.pow_succ'] at h)
    have hvalue : (n % 256).toUInt8.toNat + 256 * (n / 256) = n := by
      rw [toNat_toUInt8 (Nat.mod_lt n (by decide)), Nat.mod_add_div]
    have hrest := (ih hhigh).map fun high => (n % 256).toUInt8.toNat + 256 * high
    rw [hvalue] at hrest
    exact (takes_readByte _).bind hrest

theorem takes_readWord (bits : UInt64) : Takes readWord (word bits) bits := by
  have hlt : bits.toNat < 256 ^ 8 := bits.toNat_lt
  have hbits : bits.toNat.toUInt64 = bits := UInt64.ofNat_toNat
  have hread := (takes_readLittleEndian hlt).map Nat.toUInt64
  rwa [hbits] at hread

theorem toList_loop (bytes : ByteArray) (i : Nat) (done : List UInt8) :
    ByteArray.toList.loop bytes i done = done.reverse ++ bytes.data.toList.drop i := by
  induction i, done using ByteArray.toList.loop.induct bytes with
  | case1 i done h ih =>
    have hsize : i < bytes.data.toList.length := h
    have hget : bytes.get! i = bytes.data.toList[i] := getElem!_pos bytes.data i h
    rw [ByteArray.toList.loop, if_pos h, ih, List.drop_eq_getElem_cons hsize, hget,
      List.reverse_cons, List.append_assoc, List.singleton_append]
  | case2 i done h =>
    have hsize : bytes.data.toList.length ≤ i := Nat.le_of_not_lt h
    rw [ByteArray.toList.loop, if_neg h, List.drop_eq_nil_of_le hsize, List.append_nil]

theorem toList_eq_data (bytes : ByteArray) : bytes.toList = bytes.data.toList := by
  rw [ByteArray.toList, toList_loop]
  rfl

theorem takes_takeText (s : String) : Takes (takeText s.utf8ByteSize) s.toUTF8.toList s := by
  intro rest
  have hlength : s.toUTF8.toList.length = s.utf8ByteSize := by
    rw [toList_eq_data]
    rfl
  have hbytes : (⟨s.toUTF8.toList.toArray⟩ : ByteArray) = s.toByteArray := by
    rw [toList_eq_data]
    rfl
  rw [takeText, if_neg (by rw [List.length_append]; omega), List.take_left' hlength,
    List.drop_left' hlength, hbytes, String.fromUTF8?, dif_pos s.isValidUTF8]
  rfl

theorem takes_readText {s : String} (h : s.utf8ByteSize < 2 ^ 64) : Takes readText (text s) s :=
  (takes_readNumber h).bind (takes_takeText s)

variable {write : α → List UInt8}

theorem takes_readMany {items : List α} (h : ∀ item ∈ items, Takes read (write item) item) :
    Takes (readMany read items.length) (items.flatMap write) items := by
  induction items with
  | nil => exact takes_pure []
  | cons item rest ih =>
    rw [List.forall_mem_cons] at h
    exact h.1.bind ((ih h.2).map (item :: ·))

theorem takes_readSequence {items : List α} (h : ∀ item ∈ items, Takes read (write item) item)
    (hlength : items.length < 2 ^ 64) : Takes (readSequence read) (sequence write items) items :=
  (takes_readNumber hlength).bind (takes_readMany h)

theorem takes_readOption {a? : Option α} (h : ∀ a ∈ a?, Takes read (write a) a) :
    Takes (readOption read) (option write a?) a? := by
  cases a? with
  | none => exact fun _ => rfl
  | some a => exact (takes_readBool true).bind ((h a rfl).map some)

end Bytes

open Bytes

theorem Literal.takes_readBytes {literal : Literal}
    (h : ∀ s, literal = .str s → s.utf8ByteSize < 2 ^ 64) :
    Takes readBytes literal.bytes literal := by
  unfold readBytes
  cases literal with
  | null => exact (takes_readSmall (by decide)).bind_nil (takes_pure _)
  | bool b => exact (takes_readSmall (by decide)).bind ((takes_readBool b).map bool)
  | int n => exact (takes_readSmall (by decide)).bind ((takes_readSigned n).map int)
  | double bits => exact (takes_readSmall (by decide)).bind ((takes_readWord bits).map double)
  | str s => exact (takes_readSmall (by decide)).bind ((takes_readText (h s rfl)).map str)

theorem Operator.takes_readBytes (op : Operator) : Takes readBytes op.bytes op := by
  have hlt : all.idxOf op < 2 ^ 32 := by cases op <;> decide
  have hop : all[all.idxOf op]? = some op := by cases op <;> rfl
  refine (takes_readSmall hlt).bind_nil ?_
  rw [hop]
  exact takes_pure op

theorem Builtin.takes_readBytes (function : Builtin) : Takes readBytes function.bytes function := by
  have hlt : all.idxOf function < 2 ^ 32 := by cases function <;> decide
  have hfunction : all[all.idxOf function]? = some function := by cases function <;> rfl
  refine (takes_readSmall hlt).bind_nil ?_
  rw [hfunction]
  exact takes_pure function

namespace Op

def texts : Op → List String
  | pushValue (.str s) => [s]
  | pushVariable name => [name]
  | setVariable name => [name]
  | call name _ _ => [name]
  | callMethod object name _ _ => [object, name]
  | wait _ names => names
  | pushProperty name => [name]
  | _ => []

structure Sized (op : Op) : Prop where
  counts : ∀ n ∈ op.counts, n < 2 ^ 64
  texts : ∀ text ∈ op.texts, text.utf8ByteSize < 2 ^ 64
  length : op.texts.length < 2 ^ 64

theorem takes_readBytes {op : Op} (h : op.Sized) : Takes readBytes op.bytes op := by
  have hcount {n : Nat} (hn : n ∈ op.counts) := takes_readNumber (h.counts n hn)
  have htext {text : String} (hn : text ∈ op.texts) := takes_readText (h.texts text hn)
  have hlength := h.length
  unfold readBytes
  cases op with
  | pushValue literal =>
    refine (takes_readSmall (by decide)).bind (Takes.map (Literal.takes_readBytes ?_) pushValue)
    rintro s rfl
    exact h.texts s (List.mem_singleton_self s)
  | pushVariable name =>
    exact (takes_readSmall (by decide)).bind ((htext (by simp [texts])).map pushVariable)
  | operate op => exact (takes_readSmall (by decide)).bind (op.takes_readBytes.map operate)
  | setVariable name =>
    exact (takes_readSmall (by decide)).bind ((htext (by simp [texts])).map setVariable)
  | call name argc restart =>
    rw [bytes, List.append_assoc, List.append_assoc]
    exact (takes_readSmall (by decide)).bind <| (htext (by simp [texts])).bind <|
      (hcount (by simp [Op.counts])).bind <| (hcount (by simp [Op.counts])).map (call name argc)
  | callMethod object name argc restart =>
    rw [bytes, List.append_assoc, List.append_assoc, List.append_assoc]
    exact (takes_readSmall (by decide)).bind <| (htext (by simp [texts])).bind <|
      (htext (by simp [texts])).bind <| (hcount (by simp [Op.counts])).bind <|
      (hcount (by simp [Op.counts])).map (callMethod object name argc)
  | jumpUnless target =>
    exact (takes_readSmall (by decide)).bind ((hcount (by simp [Op.counts])).map jumpUnless)
  | stop | nop | pushResult | invert => exact (takes_readSmall (by decide)).bind_nil (takes_pure _)
  | jump target =>
    exact (takes_readSmall (by decide)).bind ((hcount (by simp [Op.counts])).map jump)
  | callBuiltin function argc =>
    rw [bytes, List.append_assoc]
    exact (takes_readSmall (by decide)).bind <| function.takes_readBytes.bind <|
      (hcount (by simp [Op.counts])).map (callBuiltin function)
  | wait all names =>
    rw [bytes, List.append_assoc]
    exact (takes_readSmall (by decide)).bind <| (takes_readBool all).bind <|
      (takes_readSequence (fun name hname => htext hname) hlength).map (wait all)
  | expectStack count =>
    exact (takes_readSmall (by decide)).bind ((hcount (by simp [Op.counts])).map expectStack)
  | ret hasValue => exact (takes_readSmall (by decide)).bind ((takes_readBool hasValue).map ret)
  | pushProperty name =>
    exact (takes_readSmall (by decide)).bind ((htext (by simp [texts])).map pushProperty)

end Op

theorem SourcePos.takes_readBytes (pos : SourcePos) : Takes readBytes pos.bytes pos := by
  have hword (n : UInt32) := takes_readSmall n.toNat_lt
  have hpos : (⟨pos.line.toNat.toUInt32, pos.column.toNat.toUInt32, pos.width.toNat.toUInt32⟩ :
      SourcePos) = pos := by simp
  have hread := (hword pos.width).map fun width : Nat =>
    (⟨pos.line.toNat.toUInt32, pos.column.toNat.toUInt32, width.toUInt32⟩ : SourcePos)
  rw [hpos] at hread
  rw [bytes, List.append_assoc]
  exact (hword pos.line).bind ((hword pos.column).bind hread)

theorem Instruction.takes_readBytes {instruction : Instruction} (h : instruction.op.Sized) :
    Takes readBytes instruction.bytes instruction :=
  (Op.takes_readBytes h).bind <|
    (takes_readOption fun pos _ => pos.takes_readBytes).map (Instruction.mk instruction.op)

namespace Program

/-- All counts and lengths are words of 64 bits, and the procedures differ in name. -/
structure Sized (program : Program) : Prop where
  size_lt : program.size < 2 ^ 64
  ops : ∀ instruction ∈ program.code.toList, instruction.op.Sized
  names : ∀ name ∈ Table.keys program.procedures, name.utf8ByteSize < 2 ^ 64
  length_lt : program.procedures.length < 2 ^ 64
  distinct : Table.Distinct program.procedures

theorem takes_readEntry {procedure : String × Nat} (hname : procedure.1.utf8ByteSize < 2 ^ 64)
    (hentry : procedure.2 < 2 ^ 64) : Takes readEntry (entryBytes procedure) procedure :=
  (takes_readText hname).bind ((takes_readNumber hentry).map (Prod.mk procedure.1))

theorem takes_readBytes {program : Program} (h : program.Sized) (hcontained : program.Contained) :
    Takes readBytes program.toBytes program := by
  have hentries : ∀ procedure ∈ program.procedures,
      Takes readEntry (entryBytes procedure) procedure := fun procedure hmem =>
    takes_readEntry (h.names _ (List.mem_map_of_mem hmem))
      (Nat.lt_trans (hcontained.entries procedure hmem) h.size_lt)
  have hread := (takes_readSequence hentries h.length_lt).map fun procedures =>
    (⟨program.code.toList.toArray, Table.ofPairs procedures⟩ : Program)
  rw [Table.ofPairs_of_distinct h.distinct, Array.toArray_toList] at hread
  exact (takes_readSequence (fun _ hmem => Instruction.takes_readBytes (h.ops _ hmem))
    h.size_lt).bind hread

theorem ofBytes_append {program : Program} (h : program.Sized) (hcontained : program.Contained)
    (rest : List UInt8) : ofBytes (program.toBytes ++ rest) = .ok program := by
  rw [ofBytes, takes_readBytes h hcontained]
  exact checked_eq_ok_iff.2 ⟨rfl, hcontained⟩

theorem contained_of_ofBytes {bytes : List UInt8} {program : Program}
    (h : ofBytes bytes = .ok program) : program.Contained := by
  unfold ofBytes at h
  split at h
  · cases h
  · obtain ⟨rfl, hcontained⟩ := checked_eq_ok_iff.1 h
    exact hcontained

end Program

/-- A program whose jumps and entries stay inside it is read from its bytes as it was, whatever
follows them; compiled programs are of this kind. Whatever bytes are accepted, the program that is
read from them stays inside itself. -/
theorem program_bytes_round_trip :
    (∀ {program : Program}, program.Contained → program.Sized →
      ∀ rest, Program.ofBytes (program.toBytes ++ rest) = .ok program) ∧
    (∀ {tree : Node} {before : List Node} {program : Program},
      tree.compile before = .ok program ∨ tree.compileExpression before = .ok program →
      program.Contained ∧ Table.Distinct program.procedures) ∧
    ∀ {bytes : List UInt8} {program : Program}, Program.ofBytes bytes = .ok program →
      program.Contained := by
  refine ⟨fun hcontained hsized => Program.ofBytes_append hsized hcontained, ?_,
    Program.contained_of_ofBytes⟩
  intro tree before program hcompile
  have htidy := hcompile.elim Program.tidy_of_compile Program.tidy_of_compileExpression
  exact ⟨htidy.contained, htidy.distinct⟩

-- The last of the doubles is not a number, and has a payload.
def Program.assorted : Program where
  code := #[⟨.pushValue (.int Int64.minValue), some ⟨0, 4294967295, 128⟩⟩,
    ⟨.pushValue (.float (-0.0)), none⟩, ⟨.pushValue (.double 0x7FF8000000000001), none⟩,
    ⟨.call "é" 18446744073709551615 0, none⟩, ⟨.wait true ["", "go"], none⟩,
    ⟨.callBuiltin .signalNotExist 128, none⟩, ⟨.jump 7, none⟩]
  procedures := [("main", 5), ("é", 0)]

theorem Program.sized_assorted : assorted.Sized where
  size_lt := by decide
  ops := by
    simp only [assorted, List.forall_mem_cons]
    refine ⟨?_, ?_, ?_, ?_, ?_, ?_, ?_, nofun⟩
    all_goals exact ⟨by decide, by decide, by decide⟩
  names := by decide
  length_lt := by decide
  distinct := by simp [assorted, Table.Distinct, Table.keys]

theorem program_bytes_round_trip_assorted :
    (Program.assorted.Contained ∧ Program.assorted.Sized ∧
      Program.ofBytes (Program.assorted.toBytes ++ [0, 255]) = .ok Program.assorted) ∧
    ((Node.root [.call "ask" [] none] none).compile [] = .ok ⟨#[⟨.call "ask" 0 0, none⟩], []⟩ ∧
      Program.Contained ⟨#[⟨.call "ask" 0 0, none⟩], []⟩) ∧
    Program.ofBytes [1, 8, 1, 0, 0, 9] = .ok ⟨#[⟨.jump 1, none⟩], []⟩ ∧
      Program.Contained ⟨#[⟨.jump 1, none⟩], []⟩ := by
  have hcontained : Program.assorted.Contained :=
    Program.assorted.firstInvalid?_eq_none_iff.1 (by decide)
  have hcompile : (Node.root [.call "ask" [] none] none).compile [] =
      .ok ⟨#[⟨.call "ask" 0 0, none⟩], []⟩ := rfl
  have hread : Program.ofBytes [1, 8, 1, 0, 0, 9] = .ok ⟨#[⟨.jump 1, none⟩], []⟩ := rfl
  obtain ⟨hround, hcompiled, haccepted⟩ := program_bytes_round_trip
  exact ⟨⟨hcontained, Program.sized_assorted, hround hcontained Program.sized_assorted [0, 255]⟩,
    ⟨hcompile, (hcompiled (.inl hcompile)).1⟩, hread, haccepted hread⟩

end DurableScript
