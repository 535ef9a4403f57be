/-!
Cutting text at a separator and joining the pieces again.
-/

namespace FieldQuery.Text

/-- The pieces between separators; a text without one is a single piece. -/
def split (separator : Char) : List Char → List (List Char)
  | [] => [[]]
  | c :: rest =>
      if c = separator then [] :: split separator rest
      else match split separator rest with
        | [] => [[c]]
        | piece :: pieces => (c :: piece) :: pieces

def join (separator : String) : List String → String
  | [] => ""
  | [piece] => piece
  | piece :: pieces => piece ++ separator ++ join separator pieces

end FieldQuery.Text
