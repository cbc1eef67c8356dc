/-!
Bytes of the compact format. Whole numbers take seven bits to the byte, lowest first, and every byte
but the last has its high bit set; text and sequences follow their length. Each writer stands beside
its reader, which takes its bytes off the front.
-/

namespace DurableScript.Bytes

abbrev Reader := StateT (List UInt8) Option

def numberWithin : Nat → Nat → List UInt8
  | 0, _ => []
  | room + 1, n =>
    if n < 128 then [n.toUInt8] else (n % 128 + 128).toUInt8 :: numberWithin room (n / 128)

def number (n : Nat) : List UInt8 := numberWithin 10 n

def takeNumber (lastByte : Nat) : Nat → List UInt8 → Option (Nat × List UInt8)
  | 0, _ => none
  | _ + 1, [] => none
  | room + 1, byte :: rest =>
    if byte.toNat < 128 then
      if room = 0 ∧ lastByte < byte.toNat then none else some (byte.toNat, rest)
    else
      match takeNumber lastByte room rest with
      | none => none
      | some (high, rest) => some (byte.toNat - 128 + 128 * high, rest)

def readNumber : Reader Nat := takeNumber 1 10

def readSmall : Reader Nat := takeNumber 15 5

/-- Whole numbers with a sign alternate: zero, minus one, one, minus two. -/
def signed (n : Int64) : List UInt8 :=
  number (if 0 ≤ n.toInt then 2 * n.toInt.toNat else 2 * (-n.toInt).toNat - 1)

def readSigned : Reader Int64 := do
  let n ← readNumber
  return Int64.ofInt (if n % 2 = 0 then Int.ofNat (n / 2) else -Int.ofNat (n / 2) - 1)

def bool (b : Bool) : List UInt8 := [if b then 1 else 0]

def readByte : Reader UInt8
  | [] => none
  | byte :: rest => some (byte, rest)

def readBool : Reader Bool := do
  match ← readByte with
  | 0 => return false
  | 1 => return true
  | _ => failure

def littleEndian : Nat → Nat → List UInt8
  | 0, _ => []
  | count + 1, n => (n % 256).toUInt8 :: littleEndian count (n / 256)

def readLittleEndian : Nat → Reader Nat
  | 0 => return 0
  | count + 1 => do
    let low ← readByte
    let high ← readLittleEndian count
    return low.toNat + 256 * high

def word (bits : UInt64) : List UInt8 := littleEndian 8 bits.toNat

def readWord : Reader UInt64 := do
  let bits ← readLittleEndian 8
  return bits.toUInt64

def text (s : String) : List UInt8 := number s.utf8ByteSize ++ s.toUTF8.toList

def takeText (size : Nat) (bytes : List UInt8) : Option (String × List UInt8) :=
  if bytes.length < size then none
  else (String.fromUTF8? ⟨(bytes.take size).toArray⟩).map fun s => (s, bytes.drop size)

def readText : Reader String := do
  let size ← readNumber
  takeText size

def sequence {α : Type} (write : α → List UInt8) (items : List α) : List UInt8 :=
  number items.length ++ items.flatMap write

def readMany {α : Type} (read : Reader α) : Nat → Reader (List α)
  | 0 => return []
  | count + 1 => do
    let item ← read
    let rest ← readMany read count
    return item :: rest

def readSequence {α : Type} (read : Reader α) : Reader (List α) := do
  let count ← readNumber
  readMany read count

def option {α : Type} (write : α → List UInt8) : Option α → List UInt8
  | none => [0]
  | some a => 1 :: write a

def readOption {α : Type} (read : Reader α) : Reader (Option α) := do
  match ← readBool with
  | false => return none
  | true => return some (← read)

end DurableScript.Bytes
