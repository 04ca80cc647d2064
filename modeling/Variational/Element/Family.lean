import Variational.Element.Lagrange
import Variational.Element.VectorField

/-! Elements by family name on a reference cell. -/
namespace Variational.PolynomialElement

variable {α : Type} [Scalar α]

/-- The element of a family, given by its full name. No family has elements on a point. -/
@[specialize] def ofFamily (family : String) (cell : ReferenceCell) (degree : Nat) :
    Result (PolynomialElement α) :=
  if cell = .point then .error (.unsupportedCell (.noElements family cell))
  else match family with
    | "Lagrange" => Lagrange.continuous cell degree
    | "Discontinuous Lagrange" => Lagrange.discontinuous cell degree
    | "Crouzeix-Raviart" => Lagrange.crouzeixRaviart cell degree
    | "Bubble" => Lagrange.bubble cell degree
    | "Raviart-Thomas" => VectorFamily.raviartThomas.create cell degree
    | "Nedelec 1st kind H(curl)" => VectorFamily.nedelecFirstKind.create cell degree
    | "Brezzi-Douglas-Marini" => VectorFamily.brezziDouglasMarini.create cell degree
    | "Nedelec 2nd kind H(curl)" => VectorFamily.nedelecSecondKind.create cell degree
    | _ => .error (.tabulatorUnsupported family cell degree)

end Variational.PolynomialElement
