/-! Lines of text and blanks at their ends. -/
namespace Variational.Lines

/-- Characters with the Unicode property of white space. -/
def isBlank (c : Char) : Bool :=
  let n := c.toNat
  (0x9 ≤ n && n ≤ 0xD) || n == 0x20 || n == 0x85 || n == 0xA0 || n == 0x1680 ||
    (0x2000 ≤ n && n ≤ 0x200A) || n == 0x2028 || n == 0x2029 || n == 0x202F || n == 0x205F ||
    n == 0x3000

/-- Drop blanks at the end. -/
def trimEnd (s : String) : String :=
  String.ofList ((s.toList.reverse.dropWhile isBlank).reverse)

/-- Split into lines. A line ends with a line feed, or with a carriage return and a line feed; the text
after the last line feed is a line unless it is empty. The current line is kept in reverse. -/
def split : (current : List Char) → List Char → List (List Char)
  | [], [] => []
  | current, [] => [current.reverse]
  | '\r' :: current, '\n' :: rest => current.reverse :: split [] rest
  | current, '\n' :: rest => current.reverse :: split [] rest
  | current, c :: rest => split (c :: current) rest

def of (s : String) : List String := (split [] s.toList).map String.ofList

/-- Indent by `n` blanks. An empty line stays empty; line breaks inside a line are indented too. -/
def indent (n : Nat) (lines : List String) : List String :=
  let margin := String.ofList (List.replicate n ' ')
  lines.map fun l => if l.isEmpty then l else margin ++ l.replace "\n" ("\n" ++ margin)

end Variational.Lines
