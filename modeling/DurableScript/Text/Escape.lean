namespace DurableScript.Text

def escape (specials : List Char) : List Char → List Char
  | [] => []
  | c :: rest =>
    if c = '\\' ∨ c ∈ specials then '\\' :: c :: escape specials rest
    else c :: escape specials rest

def unescape : List Char → List Char
  | [] => []
  | ['\\'] => []
  | '\\' :: c :: rest => c :: unescape rest
  | c :: rest => c :: unescape rest

def splitFirst? (separator : Char) : List Char → Option (List Char × List Char)
  | [] => none
  | ['\\'] => none
  | '\\' :: c :: rest =>
    (splitFirst? separator rest).map fun (before, after) => ('\\' :: c :: before, after)
  | c :: rest =>
    if c = separator then some ([], rest)
    else (splitFirst? separator rest).map fun (before, after) => (c :: before, after)

def splitAll (separator : Char) : List Char → List (List Char)
  | [] => [[]]
  | ['\\'] => [['\\']]
  | '\\' :: c :: rest =>
    match splitAll separator rest with
    | [] => [['\\', c]]
    | part :: parts => ('\\' :: c :: part) :: parts
  | c :: rest =>
    if c = separator then [] :: splitAll separator rest
    else
      match splitAll separator rest with
      | [] => [[c]]
      | part :: parts => (c :: part) :: parts

end DurableScript.Text
