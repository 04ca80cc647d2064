import Variational.Code.Combination
import Variational.Code.Expr
import Variational.Text.Lines

/-! Statements of generated code: declarations of numbers, arrays and tables, assignments inside loops
with fixed bounds, and one kind of choice. -/
namespace Variational.Code

/-- A coefficient times factors. -/
structure Weighted (α : Type) where
  coefficient : α
  factors : List (Expr α)
  /-- Whether blanks stand around the signs. -/
  spaced : Bool

/-- The term as a template for its coefficient. -/
def Weighted.scaled (t : Weighted Float) : Scaled Float :=
  let sign := if t.spaced then " * " else "*"
  ⟨t.coefficient, "\x7b\x7d" ++ String.join (t.factors.map fun e => sign ++ e.text fullPlaces)⟩

/-- Terms one after the other. -/
def Weighted.concat (ps : List (Piece Float (Weighted Float))) : String :=
  Scaled.concat (ps.map fun p => ⟨p.separator, p.number, p.term.scaled⟩)

/-- A value in the initializer of an array. -/
inductive Initial (α : Type) where
  | expr (e : Expr α)
  | joined (terms : List (Weighted α))
  | folded (terms : List (Weighted α))

def Initial.text (places : Nat) : Initial Float → String
  | expr e => e.text places
  | joined ts => Weighted.concat (Piece.joined Weighted.coefficient ts)
  | folded ts => Weighted.concat (Piece.folded Weighted.coefficient ts)

/-- A row of a table: numbers, or rows of numbers. -/
inductive Row (α : Type) where
  | flat (xs : List α)
  | stacked (rows : List (List α))

/-- Items in braces. -/
def braced (items : List String) : String := "\x7b" ++ ", ".intercalate items ++ "\x7d"

def Row.text (places : Nat) : Row Float → String
  | flat xs => braced (xs.map (Scientific.literal · places))
  | stacked rows => braced (rows.map fun xs => braced (xs.map (Scientific.literal · places)))

/-- The rows of an initializer, one a line, in braces that the first and the last row bring. -/
def bracedRows (rows : List String) : List String :=
  rows.zipIdx.map fun (row, k) =>
    (if k = 0 then "\x7b" else " ") ++ row ++ (if k + 1 = rows.length then "\x7d;" else ",")

def extents (ns : List Nat) : String := String.join (ns.map fun n => s!"[{n}]")

inductive Statement (α : Type) where
  | comment (text : String)
  | blank
  /-- A declaration without arithmetic. -/
  | verbatim (line : String)
  | constant (name : String) (value : Expr α)
  | declare (name : String) (value : Expr α)
  | array (name : String) (values : List (Initial α))
  /-- A static table with one row a line. -/
  | table (qualifiers name : String) (dims : List Nat) (rows : List (Row α))
  /-- Set a variable to one of two values, the first if a number is small. -/
  | choose (number : Expr α) (bound : String) (target : String) (small large : Expr α)
  /-- Set or increase a place inside loops over counters from zero up to bounds. -/
  | loop (counters : List (String × Nat)) (target : Expr α) (increase : Bool) (value : Expr α)

namespace Statement

variable {α : Type}

/-- Blanks in front of the line inside `k` loops. -/
def margin (k : Nat) : String := String.ofList (List.replicate (2 * k) ' ')

def loopLines (counters : List (String × Nat)) (body : String) : List String :=
  counters.zipIdx.map (fun ((i, n), k) =>
    margin k ++ s!"for (unsigned int {i} = 0; {i} < {n}; {i}++)") ++ [margin counters.length ++ body]

def lines (places : Nat) : Statement Float → List String
  | comment s => ["// " ++ s]
  | blank => [""]
  | verbatim s => [s]
  | constant name e => ["const double " ++ name ++ " = " ++ e.text places ++ ";"]
  | declare name e => ["double " ++ name ++ " = " ++ e.text places ++ ";"]
  | array name vs =>
    ["const double " ++ name ++ extents [vs.length] ++ " = " ++ braced (vs.map (·.text places)) ++ ";"]
  | table qualifiers name dims rows =>
    (qualifiers ++ " double " ++ name ++ extents dims ++ " = \\") ::
      bracedRows (rows.map (·.text places))
  | choose e bound target small large =>
    ["if (std::abs(" ++ e.text places ++ ") < " ++ bound ++ ")",
     "  " ++ target ++ " = " ++ small.text places ++ ";",
     "else",
     "  " ++ target ++ " = " ++ large.text places ++ ";"]
  | loop counters target increase e =>
    loopLines counters
      (target.text places ++ (if increase then " += " else " = ") ++ e.text places ++ ";")

/-- An assignment outside of loops. -/
def assign (target value : Expr α) : Statement α := loop [] target false value

end Statement

def lines (places : Nat) (body : List (Statement Float)) : List String :=
  body.flatMap (·.lines places)

/-- Statements in a row, or a choice between rows of them by the value of a variable. -/
inductive Block (α : Type) where
  | plain (body : List (Statement α))
  /-- Cases are numbered from zero; in nested ones declarations are local. -/
  | switch (selector : String) (nested : Bool) (cases : List (List (Statement α)))

namespace Block

def caseLines (places : Nat) (nested : Bool) (k : Nat) (body : List (Statement Float)) :
    List String :=
  let inner := Code.lines places body
  s!"case {k}:" ::
    (if nested then ["  \x7b"] ++ Lines.indent 4 inner ++ ["  \x7d"] else Lines.indent 2 inner) ++
    ["  break;"]

def lines (places : Nat) : Block Float → List String
  | plain body => Code.lines places body
  | switch v nested cases =>
    [s!"switch ({v})", "\x7b"] ++
      (cases.zipIdx.flatMap fun (body, k) => caseLines places nested k body) ++ ["\x7d"]

end Block
end Variational.Code
