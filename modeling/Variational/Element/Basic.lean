import Variational.Element.Layout

/-! Elements: the polynomial elements on reference cells, values at quadrature points, and the ways of
building elements from elements. -/
namespace Variational

/-- Where a wrapped product element puts its values. -/
structure Wrapping where
  space : SobolevSpace
  component : Nat
  deriving DecidableEq, Repr

inductive Element (α : Type) where
  | polynomial (e : PolynomialElement α)
  /-- Constants on the cell. -/
  | reals (e : PolynomialElement α)
  /-- A time element. -/
  | time (e : PolynomialElement α)
  /-- Values at the nodes of a quadrature rule. -/
  | quadrature (cell : Cell) (degree : Nat) (nodes : List (Node α))
  | mixed (parts : List (Element α))
  /-- Some of the basis functions. -/
  | restricted (element : Element α) (indices : List Nat) (domain : Domain)
  | enriched (a b : Element α)
  | product (a b : Element α) (wrapping : Option Wrapping)

namespace Element

variable {α : Type} [Scalar α]

mutual

def layout : Element α → Layout
  | polynomial e => .ofPolynomial e
  | reals e => .reals e
  | time e => .ofPolynomial e
  | quadrature cell degree nodes => .quadrature cell degree nodes.length
  | mixed parts => .mixed (layouts parts)
  | restricted e indices domain => .restricted e.layout indices domain
  | enriched a b => .enriched a.layout b.layout
  | product a b none => .product a.layout b.layout
  | product a b (some w) => (Layout.product a.layout b.layout).wrapped w.space

def layouts : List (Element α) → List Layout
  | [] => []
  | e :: es => e.layout :: layouts es

end

def cell (e : Element α) : Cell := e.layout.cell
def degree (e : Element α) : Nat := e.layout.degree
def valueSize (e : Element α) : Nat := e.layout.valueSize
def dimension (e : Element α) : Nat := e.layout.dimension
def signature (e : Element α) : String := e.layout.signature

/-- The parts of a mixed element; other elements have none. -/
def parts : Element α → List (Element α)
  | mixed es => es
  | _ => []

/-- Two bases in the expansion set of the higher of their degrees, one after the other. -/
def joinExpansions (l : Layout) (x y : PolynomialElement α) : Result (PolynomialElement α) := do
  let n := max x.embeddedDegree y.embeddedDegree
  let first ← x.lift n
  let second ← y.lift n
  return {
    family := l.family, cell := x.cell, degree := l.degree, embeddedDegree := n, map := l.map
    valueShape := l.valueShape, coefficients := first ++ second, entityDofs := l.entityDofs }

/-- The basis as coefficients in one expansion set, for the elements that have it. -/
def expansion? : Element α → Option (PolynomialElement α)
  | polynomial e => some e
  | reals e => some e
  | time e => some e
  | enriched a b => do
    let x ← a.expansion?
    let y ← b.expansion?
    if x.cell = y.cell then (joinExpansions (.enriched a.layout b.layout) x y).toOption else none
  | _ => none

theorem layouts_eq_map (es : List (Element α)) : layouts es = es.map layout := by
  induction es with
  | nil => rfl
  | cons e es ih => simp [layouts, ih]

end Element
end Variational
