/-! # Cutting texts -/

namespace Downlevel.Text

def split (sep : Char) : List Char → List (List Char)
  | [] => [[]]
  | c :: cs =>
    if c == sep then [] :: split sep cs
    else
      match split sep cs with
      | part :: rest => (c :: part) :: rest
      | [] => [[c]]

end Downlevel.Text
