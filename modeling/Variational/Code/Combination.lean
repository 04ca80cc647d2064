import Variational.Scalar
import Variational.Text.Scientific
import Variational.Text.Substitution

/-! Linear combinations in generated code, with the signs of the coefficients folded into the
separators. -/
namespace Variational.Code

/-- Places of the literals in code whose precision is not an option. -/
def fullPlaces : Nat := 15

/-- A term of a linear combination as it is written: what stands before it, and the number that is
written in the place of its coefficient. -/
structure Piece (α β : Type) where
  separator : String
  number : α
  term : β

namespace Piece

variable {α β : Type} [Scalar α]

/-- Coefficients below this in absolute value are not written. -/
def isZero (c : α) : Bool := Scalar.below (Scalar.abs c) (Scalar.tenth 15)

/-- The terms with their own signs, joined by a plus, or by a blank when the last coefficient is
negative. -/
def joined (coefficient : β → α) (ts : List β) : List (Piece α β) :=
  let separator := match ts.getLast? with
    | some t => if Scalar.below (coefficient t) 0 then " " else " + "
    | none => " + "
  match ts.filter fun t => !isZero (coefficient t) with
  | [] => []
  | t :: rest => ⟨"", coefficient t, t⟩ :: rest.map fun t => ⟨separator, coefficient t, t⟩

/-- A term after another one: its sign is folded into the separator, which is left out after a zero
term. -/
def foldedAfter? (coefficient : β → α) (previous t : β) : Option (Piece α β) :=
  let c := coefficient t
  if isZero c then none
  else if Scalar.below c 0 then some ⟨"-", Scalar.abs c, t⟩
  else if isZero (coefficient previous) then some ⟨"", Scalar.abs c, t⟩
  else some ⟨"+", Scalar.abs c, t⟩

/-- The terms with folded signs; the first one keeps its own. -/
def folded (coefficient : β → α) : List β → List (Piece α β)
  | [] => []
  | t :: ts =>
    (if isZero (coefficient t) then [] else [⟨"", coefficient t, t⟩]) ++
      (List.zipWith (foldedAfter? coefficient) (t :: ts) ts).filterMap id

end Piece

/-- A coefficient and the text around it, in which a pair of braces marks its place. -/
structure Scaled (α : Type) where
  coefficient : α
  template : String
  deriving Repr

namespace Scaled

/-- The text with a number in its place. -/
def fill (t : Scaled Float) (c : Float) : String :=
  Substitution.replace t.template "\x7b\x7d" (Scientific.literal c fullPlaces)

/-- Pieces one after the other. -/
def concat (ps : List (Piece Float (Scaled Float))) : String :=
  String.join (ps.map fun p => p.separator ++ p.term.fill p.number)

def joined (ts : List (Scaled Float)) : String := concat (Piece.joined coefficient ts)

def folded (ts : List (Scaled Float)) : String := concat (Piece.folded coefficient ts)

end Scaled
end Variational.Code
