/-! Cutting text at a delimiter. -/
namespace StackAssembler.Text

/-- Cut at the first delimiter, which is dropped. Without one, all of the text comes first. -/
def cutFirst (d : Char) (cs : List Char) : List Char × List Char :=
  (cs.takeWhile (· != d), (cs.dropWhile (· != d)).drop 1)

/-- Cut at the last delimiter, which is dropped. Without one, all of the text comes second. -/
def cutLast (d : Char) (cs : List Char) : List Char × List Char :=
  ((cutFirst d cs.reverse).2.reverse, (cutFirst d cs.reverse).1.reverse)

/-- The pieces between delimiters. A last piece that is empty is left out. -/
def pieces (d : Char) : List Char → List (List Char)
  | [] => []
  | c :: cs =>
    if c = d then [] :: pieces d cs
    else match pieces d cs with
      | [] => [[c]]
      | p :: ps => (c :: p) :: ps

/-- The pieces from back to front. A first piece that is empty is left out. -/
def piecesBack (d : Char) (cs : List Char) : List (List Char) :=
  (pieces d cs.reverse).map List.reverse

/-- Cut a string at its first delimiter, or at its last one when `fromEnd` is set. -/
def cut (s : String) (d : Char) (fromEnd : Bool) : String × String :=
  let halves := if fromEnd then cutLast d s.toList else cutFirst d s.toList
  (String.ofList halves.1, String.ofList halves.2)

/-- All pieces of a string, front to back or back to front. -/
def cutAll (s : String) (d : Char) (fromEnd : Bool) : List String :=
  (if fromEnd then piecesBack d s.toList else pieces d s.toList).map String.ofList

end StackAssembler.Text
