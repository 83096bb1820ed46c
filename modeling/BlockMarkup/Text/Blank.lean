/-!
# White space

The characters with the Unicode property White_Space, and the operations that cut a text at them.
Everything works on lists of characters; the forms on `String` are at the end.
-/

namespace BlockMarkup.Text

/-- The characters with the property White_Space. The zero width space U+200B and the byte order
mark U+FEFF do not have it. -/
def isBlank (c : Char) : Bool :=
  let n := c.toNat
  (9 ≤ n && n ≤ 13) || n = 0x20 || n = 0x85 || n = 0xA0 || n = 0x1680 ||
    (0x2000 ≤ n && n ≤ 0x200A) || n = 0x2028 || n = 0x2029 || n = 0x202F || n = 0x205F || n = 0x3000

/-- Drops the white space at the end. -/
def dropBlankEnd (cs : List Char) : List Char :=
  (cs.reverse.dropWhile isBlank).reverse

/-- Drops the white space at both ends. -/
def dropBlank (cs : List Char) : List Char :=
  dropBlankEnd (cs.dropWhile isBlank)

/-- The pieces between the characters that satisfy `p`: one more than there are such characters. -/
def splitAt (p : Char → Bool) : List Char → List (List Char)
  | [] => [[]]
  | c :: cs =>
    if p c then [] :: splitAt p cs
    else
      match splitAt p cs with
      | [] => [[c]]
      | piece :: pieces => (c :: piece) :: pieces

/-- The maximal runs of characters that are not white space, in order. -/
def blankSeparated (cs : List Char) : List (List Char) :=
  (splitAt isBlank cs).filter (!·.isEmpty)

/-- What stands before and after the first occurrence of `c`. -/
def splitFirst (c : Char) : List Char → Option (List Char × List Char)
  | [] => none
  | d :: ds =>
    if d = c then some ([], ds)
    else (splitFirst c ds).map fun (before, rest) => (d :: before, rest)

/-- The words of a text: `String` form of `blankSeparated`. -/
def words (s : String) : List String := (blankSeparated s.toList).map String.ofList

/-- Whether a text has no character other than white space. -/
def isAllBlank (s : String) : Bool := s.toList.all isBlank

/-- The texts one after another, with `separator` between neighbours. -/
def join (separator : String) : List String → String
  | [] => ""
  | [s] => s
  | s :: ss => s ++ separator ++ join separator ss

end BlockMarkup.Text
