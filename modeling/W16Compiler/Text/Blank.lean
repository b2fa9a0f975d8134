/-!
# Blank characters and lines

White space is the Unicode property of that name. A line ends at a line feed, and a carriage return
directly before the line feed belongs to the line end.
-/

namespace W16Compiler.Text

/-- The twenty-five characters with the Unicode property White_Space. -/
def isBlank (c : Char) : Bool :=
  let n := c.toNat
  (9 ≤ n && n ≤ 13) || n == 0x20 || n == 0x85 || n == 0xA0 || n == 0x1680 ||
    (0x2000 ≤ n && n ≤ 0x200A) || n == 0x2028 || n == 0x2029 || n == 0x202F || n == 0x205F ||
    n == 0x3000

def trimStart (cs : List Char) : List Char := cs.dropWhile isBlank

def trimEnd (cs : List Char) : List Char := (cs.reverse.dropWhile isBlank).reverse

def trim (s : String) : String := String.ofList (trimEnd (trimStart s.toList))

def dropReturn (cs : List Char) : List Char :=
  if cs.getLast? == some '\r' then cs.dropLast else cs

def linesFrom : List Char → List Char → List (List Char)
  | [], [] => []
  | acc, [] => [acc.reverse]
  | acc, c :: rest =>
    if c == '\n' then dropReturn acc.reverse :: linesFrom [] rest else linesFrom (c :: acc) rest

/-- The lines of a text, without their ends; a final line feed opens no further line. -/
def lines (s : String) : List String := (linesFrom [] s.toList).map String.ofList

end W16Compiler.Text
