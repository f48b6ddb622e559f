/-!
# Pieces of a text

A text cut at every occurrence of a separator. There is one more piece than there are separators,
and pieces may be empty.
-/

namespace FriBound.Text

/-- The pieces between the separators. -/
def split (separator : Char) : List Char → List (List Char)
  | [] => [[]]
  | c :: cs =>
    if c = separator then [] :: split separator cs
    else match split separator cs with
      | [] => [[c]]
      | piece :: pieces => (c :: piece) :: pieces

/-- The pieces that are not empty. -/
def pieces (separator : Char) (cs : List Char) : List (List Char) :=
  (split separator cs).filter fun piece => !piece.isEmpty

end FriBound.Text
