import Mathlib
import Variational.Form.Plan

/-! The flat list of value blocks of an element. The blocks of an element lie side by side inside its
components, each component is covered by one of them, and a block is found by the components that it
covers. -/
namespace Variational

namespace Element

variable {α : Type}

mutual

/-- Induction that opens sums and nothing else. -/
theorem mixed_induction {P : Element α → Prop} (other : ∀ e, (∀ es, e ≠ mixed es) → P e)
    (sum : ∀ es, (∀ e ∈ es, P e) → P (mixed es)) : ∀ e, P e
  | mixed es => sum es (mixed_induction_list other sum es)
  | polynomial _ => other _ (by simp)
  | reals _ => other _ (by simp)
  | time _ => other _ (by simp)
  | quadrature .. => other _ (by simp)
  | restricted .. => other _ (by simp)
  | enriched .. => other _ (by simp)
  | product .. => other _ (by simp)

theorem mixed_induction_list {P : Element α → Prop} (other : ∀ e, (∀ es, e ≠ mixed es) → P e)
    (sum : ∀ es, (∀ e ∈ es, P e) → P (mixed es)) : ∀ es : List (Element α), ∀ e ∈ es, P e
  | [] => by simp
  | e :: es => List.forall_mem_cons.mpr
      ⟨mixed_induction other sum e, mixed_induction_list other sum es⟩

end

theorem valueSize_mixed [Scalar α] (es : List (Element α)) :
    (mixed es).valueSize = (es.map valueSize).foldr (· + ·) 0 := by
  change (Layout.mixed (layouts es)).valueSize = _
  simp only [Layout.mixed, Layout.valueSize, layouts_eq_map, List.foldr_cons, List.foldr_nil, mul_one,
    List.map_map]
  rfl

variable [Scalar α]

theorem blocksFrom_other {e : Element α} (h : ∀ es, e ≠ mixed es) (offset : ℕ) :
    blocksFrom offset e = [⟨offset, e.valueSize, e.layout.map⟩] := by
  cases e with
  | mixed es => exact absurd rfl (h es)
  | _ => rfl

end Element

namespace ValueBlock

/-- Whether a component belongs to the block. -/
def covers (c : ℕ) (b : ValueBlock) : Bool := b.offset ≤ c && c < b.offset + b.size

variable {α : Type} [Scalar α]

/-- Outside of its block a physical component has no factors. -/
theorem factor?_outside {blocks : List ValueBlock} {b : ValueBlock} {c s : ℕ}
    (h : blocks.find? (covers c) = some b) (hs : s < b.offset ∨ b.offset + b.size ≤ s) :
    (factor? blocks c s : Option (Monomial α)) = none := by
  unfold covers at h
  unfold factor?
  rw [h]
  simp [hs]

/-- The second block starts after the first. -/
def Before (b b' : ValueBlock) : Prop := b.offset + b.size ≤ b'.offset

/-- Among blocks in order the one that covers a component is the one that is found. -/
theorem find_of_covers {blocks : List ValueBlock} (h : blocks.Pairwise Before) {b : ValueBlock} {c : ℕ}
    (hb : b ∈ blocks) (hc : b.covers c) : blocks.find? (covers c) = some b := by
  induction h with
  | nil => cases hb
  | @cons b₀ blocks hbefore _ ih =>
    rcases List.mem_cons.mp hb with rfl | hb
    · rw [List.find?_cons_of_pos hc]
    · have hlater : b₀.offset + b₀.size ≤ b.offset := hbefore b hb
      have hcovers := hc
      simp only [covers, Bool.and_eq_true, decide_eq_true_eq] at hcovers
      rw [List.find?_cons_of_neg, ih hb]
      simp only [covers, Bool.and_eq_true, decide_eq_true_eq]
      omega

end ValueBlock

namespace Element

variable {α : Type} [Scalar α]

theorem blocksOfParts_within (es : List (Element α))
    (ih : ∀ e ∈ es, ∀ offset, ∀ b ∈ blocksFrom offset e,
      offset ≤ b.offset ∧ b.offset + b.size ≤ offset + e.valueSize) (offset : ℕ) :
    ∀ b ∈ blocksOfParts offset es,
      offset ≤ b.offset ∧ b.offset + b.size ≤ offset + (es.map valueSize).foldr (· + ·) 0 := by
  induction es generalizing offset with
  | nil => simp [blocksOfParts]
  | cons e es ihs =>
    intro b hb
    rw [List.forall_mem_cons] at ih
    simp only [blocksOfParts, List.mem_append] at hb
    simp only [List.map_cons, List.foldr_cons]
    rcases hb with hb | hb
    · have := ih.1 offset b hb
      omega
    · have := ihs ih.2 (offset + e.valueSize) b hb
      omega

/-- The blocks of an element lie inside the components of the element. -/
theorem blocksFrom_within (e : Element α) : ∀ offset, ∀ b ∈ blocksFrom offset e,
    offset ≤ b.offset ∧ b.offset + b.size ≤ offset + e.valueSize := by
  induction e using mixed_induction with
  | other e h =>
    intro offset b hb
    rw [blocksFrom_other h, List.mem_singleton] at hb
    subst hb
    exact ⟨le_rfl, le_rfl⟩
  | sum es ih =>
    intro offset
    rw [valueSize_mixed]
    exact blocksOfParts_within es ih offset

theorem find_blocksFrom_none (e : Element α) (offset c : ℕ) (h : offset + e.valueSize ≤ c) :
    (blocksFrom offset e).find? (ValueBlock.covers c) = none := by
  rw [List.find?_eq_none]
  intro b hb
  have := blocksFrom_within e offset b hb
  simp only [ValueBlock.covers, Bool.and_eq_true, decide_eq_true_eq]
  omega

theorem blocksOfParts_ordered (es : List (Element α))
    (ih : ∀ e ∈ es, ∀ offset, (blocksFrom offset e).Pairwise ValueBlock.Before) (offset : ℕ) :
    (blocksOfParts offset es).Pairwise ValueBlock.Before := by
  induction es generalizing offset with
  | nil => exact .nil
  | cons e es ihs =>
    rw [List.forall_mem_cons] at ih
    rw [blocksOfParts, List.pairwise_append]
    refine ⟨ih.1 offset, ihs ih.2 _, fun b hb b' hb' => ?_⟩
    have hleft := blocksFrom_within e offset b hb
    have hright := blocksOfParts_within es (fun e _ => blocksFrom_within e) _ b' hb'
    exact hleft.2.trans hright.1

/-- The blocks of an element come in the order of the components and do not overlap. -/
theorem blocksFrom_ordered (e : Element α) :
    ∀ offset, (blocksFrom offset e).Pairwise ValueBlock.Before := by
  induction e using mixed_induction with
  | other e h =>
    intro offset
    rw [blocksFrom_other h]
    exact List.pairwise_singleton _ _
  | sum es ih => exact blocksOfParts_ordered es ih

theorem blocksOfParts_cover (es : List (Element α))
    (ih : ∀ e ∈ es, ∀ offset c, offset ≤ c → c < offset + e.valueSize →
      ∃ b ∈ blocksFrom offset e, b.covers c) (offset c : ℕ) (h : offset ≤ c)
    (hc : c < offset + (es.map valueSize).foldr (· + ·) 0) :
    ∃ b ∈ blocksOfParts offset es, b.covers c := by
  induction es generalizing offset with
  | nil =>
    simp only [List.map_nil, List.foldr_nil] at hc
    omega
  | cons e es ihs =>
    rw [List.forall_mem_cons] at ih
    simp only [List.map_cons, List.foldr_cons] at hc
    rw [blocksOfParts]
    by_cases hce : c < offset + e.valueSize
    · obtain ⟨b, hb, hcovers⟩ := ih.1 offset c h hce
      exact ⟨b, List.mem_append_left _ hb, hcovers⟩
    · obtain ⟨b, hb, hcovers⟩ := ihs ih.2 (offset + e.valueSize) (by omega) (by omega)
      exact ⟨b, List.mem_append_right _ hb, hcovers⟩

/-- Every component of an element belongs to a block. -/
theorem blocksFrom_cover (e : Element α) : ∀ offset c, offset ≤ c → c < offset + e.valueSize →
    ∃ b ∈ blocksFrom offset e, b.covers c := by
  induction e using mixed_induction with
  | other e h =>
    intro offset c hl hr
    refine ⟨⟨offset, e.valueSize, e.layout.map⟩, ?_, ?_⟩
    · rw [blocksFrom_other h]
      exact List.mem_singleton_self _
    · simp [ValueBlock.covers, hl, hr]
  | sum es ih =>
    intro offset c hl hr
    rw [valueSize_mixed] at hr
    exact blocksOfParts_cover es ih offset c hl hr

theorem find_blocks (e : Element α) {c : ℕ} (hc : c < e.valueSize) :
    ∃ b, e.blocks.find? (ValueBlock.covers c) = some b := by
  obtain ⟨b, hb, hcovers⟩ := blocksFrom_cover e 0 c (Nat.zero_le c) (by omega)
  exact ⟨b, ValueBlock.find_of_covers (blocksFrom_ordered e 0) hb hcovers⟩

end Element
end Variational
