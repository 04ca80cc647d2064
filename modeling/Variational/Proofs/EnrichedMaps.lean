import Variational.Proofs.CacheTransparency
import Variational.Proofs.ElementShapes

/-! Enriching elements and carrying their values to a physical cell. The enriched element has one map for
all components, that of its operands; it carries values as the operands do when each operand has one map
for all components too, and only then. -/
namespace Variational

variable {α : Type} [Scalar α]

/-- The coefficient of reference component `s` in physical component `c` of a value with one map. -/
def ValueMap.factor? (c s : ℕ) : ValueMap → Option (Monomial α)
  | identity => if c = s then some .one else none
  | contravariantPiola => some ⟨1, 1, [.jacobian c s]⟩
  | covariantPiola => some ⟨1, 0, [.inverseJacobian s c]⟩

theorem ValueBlock.factor?_inside {blocks : List ValueBlock} {b : ValueBlock} {c s : ℕ}
    (h : blocks.find? (covers c) = some b) (hs : b.covers s) :
    (factor? blocks c s : Option (Monomial α)) = b.map.factor? (c - b.offset) (s - b.offset) := by
  simp only [covers, Bool.and_eq_true, decide_eq_true_eq] at hs
  have hin : ¬ (s < b.offset ∨ b.offset + b.size ≤ s) := by omega
  unfold covers at h
  unfold factor?
  rw [h]
  simp only [Option.bind_eq_bind, Option.bind_some, hin, if_false]
  cases b.map <;> rfl

namespace Element

/-- One map carries all components: every block has the map of the element. -/
def OneMap (e : Element α) : Prop := ∀ b ∈ e.blocks, b.map = e.layout.map

theorem oneMap_other {e : Element α} (h : ∀ es, e ≠ mixed es) : e.OneMap := by
  rw [OneMap, blocks, blocksFrom_other h, List.forall_mem_singleton]

theorem factor?_other {e : Element α} (h : ∀ es, e ≠ mixed es) {c s : ℕ} (hc : c < e.valueSize)
    (hs : s < e.valueSize) :
    (ValueBlock.factor? e.blocks c s : Option (Monomial α)) = e.layout.map.factor? c s := by
  have hblocks : e.blocks = [⟨0, e.valueSize, e.layout.map⟩] := blocksFrom_other h 0
  have hfind : e.blocks.find? (ValueBlock.covers c) = some ⟨0, e.valueSize, e.layout.map⟩ := by
    rw [hblocks, List.find?_cons_of_pos (by simpa [ValueBlock.covers] using hc)]
  rw [ValueBlock.factor?_inside hfind (by simpa [ValueBlock.covers] using hs), Nat.sub_zero, Nat.sub_zero]

/-- A sum of parts that are all carried by the identity is carried by it. -/
theorem factor?_of_oneMap {e : Element α} (h : e.OneMap) {c s : ℕ} (hc : c < e.valueSize)
    (hs : s < e.valueSize) :
    (ValueBlock.factor? e.blocks c s : Option (Monomial α)) = e.layout.map.factor? c s := by
  cases e with
  | mixed parts =>
    obtain ⟨b, hb⟩ := find_blocks _ hc
    have hcovers := List.find?_some hb
    have hmap : b.map = .identity := h b (List.mem_of_find?_eq_some hb)
    change _ = ValueMap.factor? c s .identity
    by_cases hin : b.covers s
    · rw [ValueBlock.factor?_inside hb hin, hmap]
      simp only [ValueBlock.covers, Bool.and_eq_true, decide_eq_true_eq] at hcovers hin
      have hsame : c - b.offset = s - b.offset ↔ c = s := by omega
      simp only [ValueMap.factor?, hsame]
    · simp only [ValueBlock.covers, Bool.and_eq_true, decide_eq_true_eq] at hcovers hin
      rw [ValueBlock.factor?_outside hb (by omega)]
      exact (if_neg (by omega)).symm
  | _ => exact factor?_other (by simp) hc hs

/-- A map that leaves the first component alone is the identity. -/
theorem eq_identity_of_factor? {m : ValueMap} (h : (m.factor? 0 0 : Option (Monomial α)) = some .one) :
    m = .identity := by
  cases m with
  | identity => rfl
  | contravariantPiola => simp [ValueMap.factor?, Monomial.one] at h
  | covariantPiola => simp [ValueMap.factor?, Monomial.one] at h

/-- Values carried by one map show that all blocks have it. -/
theorem oneMap_of_factor? {e : Element α} (hpos : ∀ b ∈ e.blocks, 0 < b.size)
    (h : ∀ c < e.valueSize, ∀ s < e.valueSize,
      (ValueBlock.factor? e.blocks c s : Option (Monomial α)) = e.layout.map.factor? c s) :
    e.OneMap := by
  cases e with
  | mixed parts =>
    intro b hb
    have hsize := hpos b hb
    have hwithin := blocksFrom_within _ 0 b hb
    have hcovers : b.covers b.offset := by simpa [ValueBlock.covers] using hsize
    have hfind := ValueBlock.find_of_covers (blocksFrom_ordered _ 0) hb hcovers
    have hfactor := h b.offset (by omega) b.offset (by omega)
    rw [blocks, ValueBlock.factor?_inside hfind hcovers, Nat.sub_self] at hfactor
    exact eq_identity_of_factor? (hfactor.trans (if_pos rfl))
  | _ => exact oneMap_other (by simp)

theorem oneMap_iff {e : Element α} (hpos : ∀ b ∈ e.blocks, 0 < b.size) : e.OneMap ↔
    ∀ c < e.valueSize, ∀ s < e.valueSize,
      (ValueBlock.factor? e.blocks c s : Option (Monomial α)) = e.layout.map.factor? c s :=
  ⟨fun h _ hc _ hs => factor?_of_oneMap h hc hs, oneMap_of_factor? hpos⟩

theorem resolved_blocks_pos {d : Descriptor} {e : Element α} (h : ofDescriptor d = .ok e) :
    ∀ b ∈ e.blocks, 0 < b.size :=
  (((closed_blocks_pos.resolve d) _ (Cache.all_empty _)).2.2 e h).2 0

/-- An enriched element carries its values to the physical cell as both operands do exactly when every
block of each operand has the map of the operand as a whole. -/
theorem enriched_factors_iff {da db : Descriptor} {e : Element α}
    (h : ofDescriptor (.enriched da db) = .ok e) :
    ∃ x y : Element α, ofDescriptor da = .ok x ∧ ofDescriptor db = .ok y ∧
      x.valueSize = e.valueSize ∧ y.valueSize = e.valueSize ∧
      ((∀ c < e.valueSize, ∀ s < e.valueSize,
        (ValueBlock.factor? e.blocks c s : Option (Monomial α)) = ValueBlock.factor? x.blocks c s ∧
        (ValueBlock.factor? e.blocks c s : Option (Monomial α)) = ValueBlock.factor? y.blocks c s) ↔
      x.OneMap ∧ y.OneMap) := by
  rw [ofDescriptor_eq_direct, direct] at h
  simp only [Result.bind_eq_ok] at h
  obtain ⟨x, hx, y, hy, henrich⟩ := h
  rw [← ofDescriptor_eq_direct] at hx hy
  obtain ⟨-, hshape, hmap, -⟩ := enrich_compatible henrich
  obtain rfl := enrich_ok henrich
  have hsize : y.valueSize = x.valueSize := congrArg (List.foldr (· * ·) 1) hshape.symm
  refine ⟨x, y, hx, hy, rfl, hsize, ?_⟩
  rw [oneMap_iff (resolved_blocks_pos hx), oneMap_iff (resolved_blocks_pos hy), hsize, ← hmap]
  -- The enriched element is no sum, so its own factors are those of the one map.
  have hfactor (c : ℕ) (hc : c < x.valueSize) (s : ℕ) (hs : s < x.valueSize) :
      (ValueBlock.factor? (enriched x y).blocks c s : Option (Monomial α)) =
        x.layout.map.factor? c s := factor?_other (by simp) hc hs
  constructor
  · intro hsame
    refine ⟨fun c hc s hs => ?_, fun c hc s hs => ?_⟩
    · rw [← hfactor c hc s hs, (hsame c hc s hs).1]
    · rw [← hfactor c hc s hs, (hsame c hc s hs).2]
  · rintro ⟨hxs, hys⟩ c hc s hs
    rw [hfactor c hc s hs, hxs c hc s hs, hys c hc s hs]
    exact ⟨rfl, rfl⟩

/-- Values at a vertex. -/
def vertexValue : Descriptor := .simple "Quadrature" (.simple .point) (some 1)

theorem vertexValue_enriched_factors : ∃ e x y : Element Float,
    ofDescriptor (.enriched vertexValue vertexValue) = .ok e ∧ ofDescriptor vertexValue = .ok x ∧
      ofDescriptor vertexValue = .ok y ∧ x.OneMap ∧ y.OneMap ∧
      ∀ c < e.valueSize, ∀ s < e.valueSize,
        (ValueBlock.factor? e.blocks c s : Option (Monomial Float)) = ValueBlock.factor? x.blocks c s ∧
        (ValueBlock.factor? e.blocks c s : Option (Monomial Float)) = ValueBlock.factor? y.blocks c s := by
  have hresolved : ∃ e : Element Float, ofDescriptor (.enriched vertexValue vertexValue) = .ok e := ⟨_, rfl⟩
  obtain ⟨e, he⟩ := hresolved
  obtain ⟨x, y, hx, hy, -, -, hiff⟩ := enriched_factors_iff he
  have hone : ∀ z : Element Float, ofDescriptor vertexValue = .ok z → z.OneMap := by
    intro z hz
    obtain rfl := Except.ok.inj hz
    exact oneMap_other (by simp)
  exact ⟨e, x, y, he, hx, hy, hone x hx, hone y hy, hiff.mpr ⟨hone x hx, hone y hy⟩⟩

/-- A tangential field on an extruded point, as the only part of a sum. -/
def tangentialSum : Descriptor :=
  .mixed [.wrapped .hcurl (.product (.simple "Quadrature" (.simple .interval) (some 1)) vertexValue)]

/-- The sum carries its field with the inverse Jacobian; enriched with itself it takes the values on the
reference cell as they are. -/
theorem tangentialSum_enriched_factors : ∃ e x : Element Float,
    ofDescriptor (.enriched tangentialSum tangentialSum) = .ok e ∧
      ofDescriptor tangentialSum = .ok x ∧ 0 < e.valueSize ∧
      ValueBlock.factor? e.blocks 0 0 = some (Monomial.one : Monomial Float) ∧
      ValueBlock.factor? x.blocks 0 0 = some (⟨1, 0, [.inverseJacobian 0 0]⟩ : Monomial Float) ∧
      (ValueBlock.factor? e.blocks 0 0 : Option (Monomial Float)) ≠ ValueBlock.factor? x.blocks 0 0 := by
  refine ⟨_, _, rfl, rfl, Nat.one_pos, rfl, rfl, ?_⟩
  intro h
  have hsymbols := congrArg (fun m => m.map Monomial.symbols) h
  cases hsymbols

end Element
end Variational
