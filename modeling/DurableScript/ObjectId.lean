namespace DurableScript

structure ObjectId where
  typeName : String
  id : String
  deriving DecidableEq

namespace ObjectId

def parse? (text : String) : Option ObjectId :=
  let chars := text.toList
  match chars.dropWhile (· != ':') with
  | [] => none
  | _ :: rest => some ⟨String.ofList (chars.takeWhile (· != ':')), String.ofList rest⟩

def text (object : ObjectId) : String := object.typeName ++ ":" ++ object.id

end ObjectId

end DurableScript
