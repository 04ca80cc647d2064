import Variational.Proofs.CacheTransparency

/-! Sums of sums. A nested sum resolves to what the sum of its leaves resolves to, and the restriction of a sum
to the sum of the restrictions, also where the answer is an error. -/
namespace Variational

namespace Descriptor

mutual

/-- What is added up in a sum of sums, from left to right. -/
def leaves : Descriptor → List Descriptor
  | mixed ds => leavesOfList ds
  | d => [d]

def leavesOfList : List Descriptor → List Descriptor
  | [] => []
  | d :: ds => leaves d ++ leavesOfList ds

end

end Descriptor

namespace Element

variable {α : Type} [Scalar α]

/-- Parts are resolved one after the other. -/
theorem directParts_append (ds more : List Descriptor) :
    (directParts (ds ++ more) : Result (List (Element α))) = do
      let first ← directParts ds
      return first ++ (← directParts more) := by
  induction ds with
  | nil =>
    rw [List.nil_append, directParts]
    exact (bind_pure _).symm
  | cons d ds ih =>
    cases d <;>
      simp only [List.cons_append, directParts, ih, bind_assoc, pure_bind, List.append_assoc]

theorem directParts_mixed (ds : List Descriptor) :
    (directParts [.mixed ds] : Result (List (Element α))) = directParts ds := by
  simp only [directParts]
  exact (bind_congr fun first => congrArg pure (List.append_nil first)).trans (bind_pure _)

mutual

theorem directParts_leaves : ∀ d : Descriptor,
    (directParts d.leaves : Result (List (Element α))) = directParts [d]
  | .mixed ds => by
    rw [Descriptor.leaves, directParts_leavesOfList ds, directParts_mixed]
  | .simple _ _ _ => rfl
  | .enriched _ _ => rfl
  | .product _ _ => rfl
  | .wrapped _ _ => rfl
  | .restricted _ _ => rfl
  | .other _ => rfl

theorem directParts_leavesOfList : ∀ ds : List Descriptor,
    (directParts (Descriptor.leavesOfList ds) : Result (List (Element α))) = directParts ds
  | [] => rfl
  | d :: ds => by
    rw [Descriptor.leavesOfList, directParts_append, directParts_leaves d, directParts_leavesOfList ds,
      ← directParts_append, List.singleton_append]

end

/-- A restricted part is its leaves, each with the innermost restriction around it. -/
theorem directParts_restricted (domain : Domain) (ds : List Descriptor) :
    (directParts (ds.map (.restricted · domain)) : Result (List (Element α))) =
      (Descriptor.restrictedLeavesOfList domain ds).mapM restrictLeaf := by
  induction ds with
  | nil => rfl
  | cons d ds ih =>
    rw [List.map_cons, directParts, ih, Descriptor.restrictedLeavesOfList, List.mapM_append]

end Element

namespace Resolve

variable {α : Type} [Scalar α]

/-- Whatever was resolved before, a sum of sums gives the element or the error of the sum of its leaves, and a
restricted sum that of the sum of its restricted parts. -/
theorem answerAfter_flattens (earlier earlier' ds : List Descriptor) (domain : Domain) :
    (answerAfter earlier (.mixed ds) : Result (Element α)) =
        answerAfter earlier' (.mixed (Descriptor.leavesOfList ds)) ∧
      (answerAfter earlier (.restricted (.mixed ds) domain) : Result (Element α)) =
        answerAfter earlier' (.mixed (ds.map (.restricted · domain))) := by
  simp only [answerAfter_eq]
  constructor
  · rw [Element.direct, Element.direct, Element.directParts_leavesOfList]
  · rw [Element.direct, Element.direct, Element.directParts_restricted]

end Resolve
end Variational
