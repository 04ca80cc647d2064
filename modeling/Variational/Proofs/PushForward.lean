import Variational.Proofs.MonomialMeaning
import Variational.Proofs.ValueBlocks

/-! Values carried from the reference cell to a physical cell, by recursion over the element, and the
agreement of this with the factors that are read off the flat list of value blocks. -/
namespace Variational

/-- Component `c` on the physical cell of the value with the components `u` on the reference cell. -/
def ValueMap.pushForward {α : Type} [ExactScalar α] (v : CellData α) (size : ℕ) (u : ℕ → α) (c : ℕ) :
    ValueMap → α
  | identity => u c
  | contravariantPiola => v.inverseDet * ∑ s ∈ Finset.range size, v.jacobian c s * u s
  | covariantPiola => ∑ s ∈ Finset.range size, v.inverseJacobian s c * u s

namespace Element

variable {α : Type} [ExactScalar α]

mutual

/-- Each part of a sum is carried to the physical cell by its own map; any other element has one map
for all its components. -/
def pushForward (v : CellData α) : Element α → (ℕ → α) → ℕ → α
  | mixed parts, u, c => pushForwardParts v parts u c
  | e, u, c => e.layout.map.pushForward v e.valueSize u c

def pushForwardParts (v : CellData α) : List (Element α) → (ℕ → α) → ℕ → α
  | [], _, _ => 0
  | e :: es, u, c =>
    if c < e.valueSize then pushForward v e u c
    else pushForwardParts v es (fun s => u (e.valueSize + s)) (c - e.valueSize)

end

theorem pushForward_other (v : CellData α) {e : Element α} (h : ∀ es, e ≠ mixed es) (u : ℕ → α)
    (c : ℕ) : e.pushForward v u c = e.layout.map.pushForward v e.valueSize u c := by
  cases e with
  | mixed es => exact absurd rfl (h es)
  | _ => rfl

end Element

namespace ValueBlock

variable {α : Type} [ExactScalar α]

/-- Component `c` on the physical cell, by the map of the block that covers it. -/
def pushForward (v : CellData α) (b : ValueBlock) (u : ℕ → α) (c : ℕ) : α :=
  b.map.pushForward v b.size (fun s => u (b.offset + s)) (c - b.offset)

/-- The factor of the reference component at a position inside the block. -/
theorem eval_factor? (v : CellData α) {blocks : List ValueBlock} {b : ValueBlock} {c s : ℕ}
    (h : blocks.find? (covers c) = some b) (hs : s < b.size) :
    Monomial.evalOption v (factor? blocks c (b.offset + s)) =
      match b.map with
      | .identity => if c - b.offset = s then 1 else 0
      | .contravariantPiola => v.inverseDet * v.jacobian (c - b.offset) s
      | .covariantPiola => v.inverseJacobian s (c - b.offset) := by
  have hin : ¬ (b.offset + s < b.offset ∨ b.offset + b.size ≤ b.offset + s) := by omega
  unfold covers at h
  unfold factor?
  rw [h]
  simp only [Option.bind_eq_bind, Option.bind_some, hin, if_false, Nat.add_sub_cancel_left]
  cases b.map with
  | identity => by_cases hi : c - b.offset = s <;> simp [hi]
  | contravariantPiola => simp [Monomial.eval, Symbol.eval]
  | covariantPiola => simp [Monomial.eval, Symbol.eval]

end ValueBlock

/-- A sum over a range whose terms vanish outside a window. -/
theorem sum_range_window {α : Type} [AddCommMonoid α] {f : ℕ → α} {offset size n : ℕ}
    (hn : offset + size ≤ n) (hf : ∀ s, s < offset ∨ offset + size ≤ s → f s = 0) :
    ∑ s ∈ Finset.range n, f s = ∑ s ∈ Finset.range size, f (offset + s) := by
  have hsub : Finset.Ico offset (offset + size) ⊆ Finset.range n := by
    intro s hs
    have := Finset.mem_Ico.mp hs
    exact Finset.mem_range.mpr (by omega)
  rw [← Finset.sum_subset hsub]
  · rw [Finset.sum_Ico_eq_sum_range, Nat.add_sub_cancel_left]
  · intro s _ hs
    rw [Finset.mem_Ico] at hs
    exact hf s (by omega)

namespace ValueBlock

variable {α : Type} [ExactScalar α]

theorem sum_factor (v : CellData α) {blocks : List ValueBlock} {b : ValueBlock} {c n : ℕ}
    (h : blocks.find? (covers c) = some b) (hn : b.offset + b.size ≤ n) (u : ℕ → α) :
    ∑ s ∈ Finset.range n, Monomial.evalOption v (factor? blocks c s) * u s = b.pushForward v u c := by
  have hc : b.covers c = true := List.find?_some h
  simp only [covers, Bool.and_eq_true, decide_eq_true_eq] at hc
  rw [sum_range_window hn]
  · have hfactor (s : ℕ) (hs : s ∈ Finset.range b.size) :=
      eval_factor? v h (Finset.mem_range.mp hs)
    rw [Finset.sum_congr rfl fun s hs => by rw [hfactor s hs]]
    unfold pushForward
    cases b.map with
    | identity =>
      simp only [ValueMap.pushForward, ite_mul, one_mul, zero_mul]
      rw [Finset.sum_ite_eq, if_pos (Finset.mem_range.mpr (by omega))]
    | contravariantPiola => simp only [ValueMap.pushForward, Finset.mul_sum, mul_assoc]
    | covariantPiola => rfl
  · intro s hs
    rw [factor?_outside h hs, Monomial.evalOption_none, zero_mul]

end ValueBlock

namespace Element

variable {α : Type} [ExactScalar α]

/-- The block found for a component carries values as the part of the element does that the component
belongs to. -/
def Carries (v : CellData α) (push : (ℕ → α) → ℕ → α) (blocks : List ValueBlock) (offset c : ℕ) :
    Prop :=
  ∃ b, blocks.find? (ValueBlock.covers c) = some b ∧
    ∀ u, b.pushForward v u c = push (fun s => u (offset + s)) (c - offset)

theorem blocksOfParts_carries (v : CellData α) (es : List (Element α))
    (ih : ∀ e ∈ es, ∀ offset c, offset ≤ c → c < offset + e.valueSize →
      Carries v (e.pushForward v) (blocksFrom offset e) offset c) (offset c : ℕ) (h : offset ≤ c)
    (hc : c < offset + (es.map valueSize).foldr (· + ·) 0) :
    Carries v (pushForwardParts v es) (blocksOfParts offset es) offset c := by
  induction es generalizing offset with
  | nil =>
    simp only [List.map_nil, List.foldr_nil] at hc
    omega
  | cons e es ihs =>
    rw [List.forall_mem_cons] at ih
    simp only [List.map_cons, List.foldr_cons] at hc
    unfold Carries
    simp only [blocksOfParts, List.find?_append, pushForwardParts]
    by_cases hce : c < offset + e.valueSize
    · obtain ⟨b, hb, hu⟩ := ih.1 offset c h hce
      refine ⟨b, by simp [hb], fun u => ?_⟩
      rw [if_pos (by omega), hu u]
    · obtain ⟨b, hb, hu⟩ := ihs ih.2 (offset + e.valueSize) (by omega) (by omega)
      refine ⟨b, by simp [hb, find_blocksFrom_none e offset c (by omega)], fun u => ?_⟩
      rw [if_neg (by omega), hu u, Nat.sub_sub]
      simp only [Nat.add_assoc]

theorem blocksFrom_carries (v : CellData α) (e : Element α) : ∀ offset c, offset ≤ c →
    c < offset + e.valueSize → Carries v (e.pushForward v) (blocksFrom offset e) offset c := by
  induction e using mixed_induction with
  | other e h =>
    intro offset c hl hr
    refine ⟨⟨offset, e.valueSize, e.layout.map⟩, ?_, fun u => ?_⟩
    · simp [blocksFrom_other h, ValueBlock.covers, hl, hr]
    · rw [pushForward_other v h]
      rfl
  | sum es ih =>
    intro offset c hl hr
    rw [valueSize_mixed] at hr
    exact blocksOfParts_carries v es ih offset c hl hr

/-- The factors of the flat list of blocks carry a value to the physical cell as the element does. -/
theorem sum_factor_blocks (v : CellData α) (e : Element α) {c : ℕ} (hc : c < e.valueSize)
    (u : ℕ → α) :
    ∑ s ∈ Finset.range e.valueSize, Monomial.evalOption v (ValueBlock.factor? e.blocks c s) * u s =
      e.pushForward v u c := by
  obtain ⟨b, hb, hu⟩ := blocksFrom_carries v e 0 c (Nat.zero_le c) (by omega)
  have hwithin := blocksFrom_within e 0 b (List.mem_of_find?_eq_some hb)
  rw [show e.blocks = blocksFrom 0 e from rfl, ValueBlock.sum_factor v hb (by omega), hu u]
  simp

end Element
end Variational
