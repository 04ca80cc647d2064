import Mathlib
import Variational.Proofs.CacheTransparency
import Variational.Proofs.Planning

/-! The elements of forms. However many forms are built one after the other on one cache, their elements
are those that the descriptors of their basis functions have by themselves. -/
namespace Variational

/-- The element of some descriptor. -/
def Element.Resolved {α : Type} [Scalar α] (e : Element α) : Prop := ∃ d, ofDescriptor d = .ok e

/-- All elements of arguments and coefficients are resolved ones. -/
def Form.Resolved {α : Type} [Scalar α] (f : Form α) : Prop := ∀ entry ∈ f.elements, entry.2.Resolved

namespace Resolve

variable {α β γ : Type} [Scalar α]

/-- Whenever the computation succeeds on a faithful cache, the postcondition holds of its value and the
cache is still faithful. -/
def Gives (post : β → Prop) (x : Resolve α β) : Prop :=
  ∀ (c : Cache α) (b : β) (c' : Cache α), c.Faithful → Returns x c b c' → post b ∧ c'.Faithful

namespace Gives

theorem pure {post : β → Prop} {b : β} (h : post b) : Gives post (pure b : Resolve α β) := by
  intro c b' c' hc hreturns
  obtain ⟨rfl, rfl⟩ := returns_pure.mp hreturns
  exact ⟨h, hc⟩

theorem throw {post : β → Prop} (e : Error) : Gives post (throw e : Resolve α β) :=
  fun _ _ _ _ hreturns => absurd hreturns not_returns_throw

theorem ofResult {post : β → Prop} {r : Result β} (h : ∀ b, r = .ok b → post b) :
    Gives post (ofResult r : Resolve α β) := by
  intro c b c' hc hreturns
  obtain ⟨hr, rfl⟩ := returns_ofResult.mp hreturns
  exact ⟨h b hr, hc⟩

theorem bind {mid : β → Prop} {post : γ → Prop} {x : Resolve α β} {f : β → Resolve α γ}
    (hx : Gives mid x) (hf : ∀ b, mid b → Gives post (f b)) : Gives post (x >>= f) := by
  intro c b c' hc hreturns
  obtain ⟨a, c₁, hfirst, hrest⟩ := returns_bind.mp hreturns
  obtain ⟨ha, hc₁⟩ := hx c a c₁ hc hfirst
  exact hf a ha c₁ b c' hc₁ hrest

theorem map {mid : β → Prop} {post : γ → Prop} {x : Resolve α β} {f : β → γ} (hx : Gives mid x)
    (hf : ∀ b, mid b → post (f b)) : Gives post (f <$> x) := by
  rw [map_eq_pure_bind]
  exact bind hx fun b hb => pure (hf b hb)

theorem mapM {post : γ → Prop} {f : β → Resolve α γ} {xs : List β}
    (hf : ∀ x ∈ xs, Gives post (f x)) : Gives (∀ y ∈ ·, post y) (xs.mapM f) := by
  induction xs with
  | nil =>
    rw [List.mapM_nil]
    exact pure (by simp)
  | cons x xs ih =>
    rw [List.forall_mem_cons] at hf
    rw [List.mapM_cons]
    exact bind hf.1 fun y hy => bind (ih hf.2) fun ys hys =>
      pure (List.forall_mem_cons.mpr ⟨hy, hys⟩)

end Gives
end Resolve

variable {α : Type} [Scalar α]

theorem Element.gives_resolve (d : Descriptor) :
    Resolve.Gives Element.Resolved (resolve d : Resolve α (Element α)) := by
  intro c e c' hc hreturns
  obtain ⟨hanswer, -, hc'⟩ := answers_resolve d c hc
  rw [show Resolve.outcome (resolve d) c = (.ok e, c') from hreturns] at hanswer hc'
  exact ⟨⟨d, (ofDescriptor_eq_direct d).trans hanswer.symm⟩, hc'⟩

theorem Product.gives_build (cell : Cell) (numPoints : Option ℕ) (p : Product α) :
    Resolve.Gives (fun _ => True) (p.build cell numPoints) := by
  intro c t c' hc hreturns
  obtain ⟨d, hplan, -⟩ := build_returns hreturns
  obtain ⟨es, hresolve, -⟩ := plan_returns hplan
  exact ⟨trivial,
    (Resolve.Gives.mapM (fun b _ => Element.gives_resolve b.element) c es c' hc hresolve).2⟩

namespace Sum

theorem gives_elementOf (s : Sum α) (a : Argument) :
    Resolve.Gives (fun o => ∀ e ∈ o, e.Resolved) (s.elementOf a) := by
  unfold elementOf
  cases s.find? a with
  | none => exact Resolve.Gives.pure (by simp)
  | some b =>
    refine Resolve.Gives.map (Element.gives_resolve b.element) fun e he => ?_
    rintro _ ⟨rfl⟩
    exact he

theorem gives_cellOf (s : Sum α) (name : String) :
    Resolve.Gives (fun _ => True) (s.cellOf name : Resolve α (Option Cell)) := by
  unfold cellOf
  cases s.basis with
  | cons b bs => exact Resolve.Gives.map (Element.gives_resolve b.element) fun _ _ => trivial
  | nil =>
    split_ifs
    · exact Resolve.Gives.pure trivial
    · exact Resolve.Gives.throw _

theorem gives_buildTerms (numPoints : Option ℕ) (s : Sum α) (cell : Option Cell) :
    Resolve.Gives (fun _ => True) (s.buildTerms numPoints cell) := by
  cases cell with
  | none => exact Resolve.Gives.pure trivial
  | some cell =>
    intro c ts c' hc hreturns
    exact ⟨trivial,
      (Resolve.Gives.mapM (fun p _ => Product.gives_build cell numPoints p) c ts c' hc hreturns).2⟩

theorem assemble_resolved {name : String} {s : Sum α} {test trial : Option (Element α)}
    {coefficients : List (Option (Element α))} {cell : Option Cell} {terms : List (Term α)} {f : Form α}
    (htest : ∀ e ∈ test, e.Resolved) (htrial : ∀ e ∈ trial, e.Resolved)
    (hcoefficients : ∀ o ∈ coefficients, ∀ e ∈ o, e.Resolved)
    (h : s.assemble name test trial coefficients cell terms = .ok f) : f.Resolved := by
  unfold assemble at h
  simp only at h
  split_ifs at h
  obtain rfl := Except.ok.inj h
  rintro ⟨n, e⟩ hentry
  obtain ⟨⟨o, i⟩, ho, he⟩ := List.mem_filterMap.mp hentry
  obtain ⟨e', rfl, heq⟩ := Option.map_eq_some_iff.mp he
  obtain ⟨-, rfl⟩ := Prod.mk.inj heq
  rcases List.mem_append.mp (List.fst_mem_of_mem_zipIdx ho) with ho | ho
  · obtain ⟨a, ha, ha'⟩ := List.mem_map.mp ho
    obtain rfl := Option.some.inj ha'
    simp only [List.mem_filterMap, id, List.mem_cons, List.not_mem_nil, or_false,
      exists_eq_right] at ha
    rcases ha with ha | ha
    · exact htest _ ha.symm
    · exact htrial _ ha.symm
  · exact hcoefficients _ ho _ rfl

theorem gives_build (numPoints : Option ℕ) (name : String) (s : Sum α) :
    Resolve.Gives Form.Resolved (s.build numPoints name) := by
  unfold build
  refine Resolve.Gives.bind (s.gives_elementOf .test) fun test htest => ?_
  refine Resolve.Gives.bind (s.gives_elementOf .trial) fun trial htrial => ?_
  refine Resolve.Gives.bind (Resolve.Gives.mapM fun n _ => s.gives_elementOf (.function n))
    fun coefficients hcoefficients => ?_
  refine Resolve.Gives.bind (s.gives_cellOf name) fun cell _ => ?_
  refine Resolve.Gives.bind (s.gives_buildTerms numPoints cell) fun terms _ => ?_
  exact Resolve.Gives.ofResult fun f hf => assemble_resolved htest htrial hcoefficients hf

/-- All forms that are built together have resolved elements. -/
theorem gives_buildAll (numPoints : Option ℕ) (name : String) (sums : List (Sum α)) :
    Resolve.Gives (∀ f ∈ ·, f.Resolved) (buildAll numPoints name sums) := by
  unfold buildAll
  split
  · exact Resolve.Gives.bind (gives_build numPoints name _) fun f hf =>
      Resolve.Gives.pure (List.forall_mem_singleton.mpr hf)
  · exact Resolve.Gives.mapM fun x _ => gives_build numPoints _ x.1

end Sum
end Variational
