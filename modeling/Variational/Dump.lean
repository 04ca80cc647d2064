import Variational.OutputOptions
import Variational.Text.Scientific

/-! The plain dump of all reference tensors: one entry a line, with its primary and secondary index. -/
namespace Variational.Dump

/-- The columns of an entry with its indices. -/
def columns (primary secondary : List Nat) : String :=
  MultiIndex.label " " primary ++ " | " ++ MultiIndex.label " " secondary

def termLines (places : Nat) (t : Term Float) (number : Nat) : List String :=
  let r := t.reference
  let secondary := r.secondary.indices.zipIdx
  (List.range r.numRegions).flatMap fun region =>
    s!"# {t.integral.name} term {number} region {region}" ::
      r.primary.indices.zipIdx.flatMap fun (index, i) => secondary.map fun (other, a) =>
        columns index other ++ " | " ++ Scientific.literal (r.value region i a) places

def formLines (places : Nat) (f : Form Float) : List String :=
  s!"# form {f.name} rank {f.rank}" ::
    [IntegralKind.interior, .boundary].flatMap fun kind =>
      (f.terms kind).zipIdx.flatMap fun (t, n) => termLines places t n

def lines (o : OutputOptions) (forms : List (Form Float)) : List String :=
  forms.flatMap (formLines o.places)

end Variational.Dump
