namespace DurableScript.Text

def dropReturn (line : List Char) : List Char :=
  match line.reverse with
  | '\r' :: rest => rest.reverse
  | _ => line

/-- `begun` holds the current line backwards. A line that nothing ends counts if it is not empty. -/
def linesFrom (begun : List Char) : List Char → List (List Char)
  | [] => if begun.isEmpty then [] else [begun.reverse]
  | '\n' :: rest => dropReturn begun.reverse :: linesFrom [] rest
  | c :: rest => linesFrom (c :: begun) rest

def lines (text : String) : List String := (linesFrom [] text.toList).map String.ofList

end DurableScript.Text
