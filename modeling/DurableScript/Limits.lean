import DurableScript.Json.Reader
import DurableScript.Json.Render

namespace DurableScript

open scoped Power

structure Limits where
  maxCycles : Option Nat
  maxCallDepth : Option Nat
  deriving DecidableEq

namespace Limits

def unlimited : Limits := ⟨none, none⟩

def json (limits : Limits) : Json :=
  .obj [("max_cycles", .ofOption .ofNat limits.maxCycles),
    ("max_call_depth", .ofOption .ofNat limits.maxCallDepth)]

def ofDocument? (document : Document) : Option Limits := do
  match ← document.parts? ["max_cycles", "max_call_depth"] with
  | [cycles, depth] =>
    let word := Document.natBelow? (2 ^ (64 : Nat))
    return ⟨← Document.optional? word cycles, ← Document.optional? word depth⟩
  | _ => none

def parse? (text : String) : Option Limits := (Document.parse? text.toList).bind ofDocument?

end Limits

end DurableScript
