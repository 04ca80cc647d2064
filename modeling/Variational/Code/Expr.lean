import Variational.Tensor.Monomial
import Variational.Text.Scientific

/-! Arithmetic expressions of generated code. An expression carries its own layout, so its text follows
from its structure alone. -/
namespace Variational.Code

inductive Op where
  | add
  | sub
  | mul
  | div
  deriving DecidableEq, Repr

def Op.sign : Op → String
  | add => "+"
  | sub => "-"
  | mul => "*"
  | div => "/"

inductive Expr (α : Type) where
  /-- A number in scientific notation. -/
  | literal (x : α)
  /-- A multiple of one half, with one decimal. -/
  | halves (n : Int)
  | natural (n : Nat)
  | name (s : String)
  | entry (array index : Expr α)
  | neg (e : Expr α)
  /-- An operation with or without blanks around its sign. -/
  | binary (op : Op) (spaced : Bool) (a b : Expr α)
  | parens (e : Expr α)
  | call (function : String) (argument : Expr α)
  deriving Repr

namespace Expr

variable {α : Type}

/-- A multiple of one half with one decimal. -/
def halvesText (n : Int) : String :=
  (if n < 0 then "-" else "") ++ toString (n.natAbs / 2) ++ (if n.natAbs % 2 = 0 then ".0" else ".5")

/-- The text, with literals to the given number of places. -/
def text (places : Nat) : Expr Float → String
  | literal x => Scientific.literal x places
  | halves n => halvesText n
  | natural n => toString n
  | name s => s
  | entry a i => a.text places ++ "[" ++ i.text places ++ "]"
  | neg e => "-" ++ e.text places
  | binary op true a b => a.text places ++ " " ++ op.sign ++ " " ++ b.text places
  | binary op false a b => a.text places ++ op.sign ++ b.text places
  | parens e => "(" ++ e.text places ++ ")"
  | call f e => f ++ "(" ++ e.text places ++ ")"

def plus (a b : Expr α) : Expr α := binary .add true a b
def minus (a b : Expr α) : Expr α := binary .sub true a b
def times (a b : Expr α) : Expr α := binary .mul false a b
def divide (a b : Expr α) : Expr α := binary .div false a b

def one : Expr α := halves 2

/-- Entry of an array of arrays. -/
def entry2 (array : String) (i j : Nat) : Expr α := entry (entry (name array) (natural i)) (natural j)

/-- Factors without blanks between them. -/
def product : List (Expr α) → Expr α
  | [] => one
  | e :: es => es.foldl times e

/-- Terms with blanks around the signs. -/
def sum : List (Expr α) → Expr α
  | [] => halves 0
  | e :: es => es.foldl plus e

end Expr

end Code

/-- A symbol as an operand. -/
def Symbol.expr {α : Type} : Symbol → Code.Expr α
  | coefficient n j => .entry2 "w" n j
  | s => .name s.name

/-- The text of a symbol is its name. -/
theorem Symbol.text_expr (places : Nat) (s : Symbol) :
    (s.expr : Code.Expr Float).text places = s.name := by
  cases s with
  | coefficient n j =>
    have h : "]" ++ "[" = "][" := rfl
    change "w" ++ "[" ++ toString n ++ "]" ++ "[" ++ toString j ++ "]" = _
    simp [name, toString, String.append_assoc, ← h]
  | jacobian | inverseJacobian | constant => rfl

namespace Monomial

variable {α : Type} [Scalar α]

/-- A monomial as a product. The coefficient is left out when it is one and there are symbols. -/
def expr (m : Monomial α) : Code.Expr α :=
  let number := if m.coefficient == 1 && !m.symbols.isEmpty then [] else [.literal m.coefficient]
  let product := Code.Expr.product (number ++ m.symbols.map Symbol.expr)
  match m.detPower with
  | 0 => product
  | 1 => product.divide (.name "detJ")
  | p => product.divide (.parens (.product (List.replicate p (.name "detJ"))))

/-- A sum of monomials; the empty sum is a zero literal. -/
def sumExpr : List (Monomial α) → Code.Expr α
  | [] => .literal 0
  | ms => .sum (ms.map expr)

end Monomial
end Variational
