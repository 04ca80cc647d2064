import Variational.Proofs.CheckedTerms

/-! Building with checked reads: a form whose arguments have one element each is built without a read that
finds nothing. -/
namespace Variational

variable {α : Type} [Scalar α]

namespace Product

def checkedBuild (cell : Cell) (numPoints : Option ℕ) (p : Product α) : Resolve α (Term α) := do
  if let some label := p.unpaired? then throw (.unpairedIndex (Index.free label).name)
  let d ← p.plan cell
  Resolve.ofResult (p.checkedTerm cell numPoints d)

end Product

namespace Sum

def checkedTerms (numPoints : Option ℕ) (s : Sum α) : Option Cell → Resolve α (List (Term α))
  | some cell => s.products.mapM (·.checkedBuild cell numPoints)
  | none => pure []

/-- The form of a sum, with all reads checked. -/
def checkedBuild (numPoints : Option ℕ) (name : String) (s : Sum α) : Resolve α (Form α) := do
  let test ← s.elementOf .test
  let trial ← s.elementOf .trial
  let coefficients ← (List.range s.numFunctions).mapM fun n => s.elementOf (.function n)
  let cell ← s.cellOf name
  let terms ← s.checkedTerms numPoints cell
  Resolve.ofResult (s.assemble name test trial coefficients cell terms)

end Sum

namespace Resolve

variable {β γ : Type}

/-- On every faithful cache the two computations have one outcome: a value with the postcondition, or a
failure, but not one over a number that is out of range. They leave a faithful cache. -/
def Agree (post : β → Prop) (x y : Resolve α β) : Prop :=
  ∀ c : Cache α, c.Faithful → outcome x c = outcome y c ∧ Result.Safe post (outcome y c).1 ∧
    (outcome y c).2.Faithful

namespace Agree

theorem pure {post : β → Prop} {b : β} (h : post b) : Agree post (pure b : Resolve α β) (pure b) :=
  fun _ hc => ⟨rfl, h, hc⟩

theorem throw {post : β → Prop} {e : Error} (h : e ≠ .outOfRange) :
    Agree post (throw e : Resolve α β) (throw e) := fun _ hc => ⟨rfl, h, hc⟩

theorem ofResult {x y : Result β} (h : Result.Same x y) :
    Agree (fun b => y = .ok b) (ofResult x : Resolve α β) (ofResult y) := by
  obtain ⟨rfl, hsafe⟩ := h
  cases x with
  | ok b => exact pure rfl
  | error e => exact throw fun he => hsafe (congrArg Except.error he)

theorem bind {mid : β → Prop} {post : γ → Prop} {x y : Resolve α β} {f g : β → Resolve α γ}
    (hx : Agree mid x y) (hf : ∀ b, mid b → Agree post (f b) (g b)) :
    Agree post (x >>= f) (y >>= g) := by
  intro c hc
  obtain ⟨hsame, hsafe, hc₁⟩ := hx c hc
  rw [outcome_bind, outcome_bind, hsame]
  rcases hrun : outcome y c with ⟨e | b, c₁⟩
  · rw [hrun] at hsafe hc₁
    exact ⟨rfl, hsafe, hc₁⟩
  · rw [hrun] at hsafe hc₁
    exact hf b hsafe c₁ hc₁

theorem mono {post post' : β → Prop} {x y : Resolve α β} (h : Agree post x y)
    (hpost : ∀ b, post b → post' b) : Agree post' x y :=
  fun c hc => ⟨(h c hc).1, (h c hc).2.1.mono hpost, (h c hc).2.2⟩

theorem map {mid : β → Prop} {post : γ → Prop} {x y : Resolve α β} {f : β → γ} (hx : Agree mid x y)
    (hf : ∀ b, mid b → post (f b)) : Agree post (f <$> x) (f <$> y) := by
  rw [map_eq_pure_bind, map_eq_pure_bind]
  exact hx.bind fun b hb => pure (hf b hb)

theorem mapM {f g : β → Resolve α γ} {xs : List β}
    (h : ∀ x ∈ xs, Agree (fun _ => True) (f x) (g x)) :
    Agree (fun _ => True) (xs.mapM f) (xs.mapM g) := by
  induction xs with
  | nil =>
    rw [List.mapM_nil, List.mapM_nil]
    exact pure trivial
  | cons x xs ih =>
    rw [List.forall_mem_cons] at h
    rw [List.mapM_cons, List.mapM_cons]
    exact h.1.bind fun y _ => (ih h.2).bind fun ys _ => pure trivial

/-- Resolution on a cache gives what it gives without one. -/
theorem resolve (d : Descriptor) :
    Agree (fun e => Element.direct d = .ok e) (Element.resolve d : Resolve α (Element α))
      (Element.resolve d) := by
  intro c hc
  obtain ⟨hanswer, -, hc'⟩ := Element.answers_resolve d c hc
  refine ⟨rfl, ?_, hc'⟩
  rw [hanswer]
  exact (Element.direct_safe d).result.mono fun _ h => h.1

end Agree
end Resolve

theorem Ranges.check_safe (ranges : Ranges) (i : Index) (range : ℕ) :
    Result.Safe (fun _ => True) (ranges.check i range) := by
  unfold Ranges.check
  cases i with
  | fixed n =>
    dsimp only
    split_ifs
    · exact trivial
    · nofun
  | free l =>
    dsimp only
    split
    · split_ifs
      · exact trivial
      · nofun
    · exact trivial

namespace Draft

open Result

theorem componentOf_safe (l : Layout) (is : List Index) : Safe (fun _ => True) (componentOf l is) := by
  unfold componentOf
  split
  · split_ifs
    · exact trivial
    · nofun
  · exact trivial
  · nofun

omit [Scalar α] in
theorem checkComponent_safe (size : ℕ) (component : Option Index) (d : Draft α) :
    Safe (fun _ => True) (d.checkComponent size component) := by
  unfold checkComponent
  cases component with
  | some i => exact (d.ranges.check_safe i size).bind fun _ _ => trivial
  | none => exact trivial

omit [Scalar α] in
theorem addDerivatives_safe (dim basis position : ℕ) (is : List Index) (d : Draft α) :
    Safe (fun _ => True) (addDerivatives dim basis position is d) := by
  induction is generalizing position d with
  | nil => exact trivial
  | cons i is ih =>
    unfold addDerivatives
    exact (d.ranges.check_safe i dim).bind fun ranges _ => (ih _ _).bind fun _ _ => trivial

theorem add_safe (cell : Cell) (trialPosition : ℕ) (d : Draft α) (b : BasisFunction)
    (e : Element α) : Safe (fun _ => True) (d.add cell trialPosition b e) := by
  unfold add
  dsimp only
  split_ifs with hcell
  · nofun
  · exact (componentOf_safe e.layout b.components).bind fun component _ =>
      (checkComponent_safe _ component _).bind fun _ _ =>
        (addDerivatives_safe _ _ _ _ _).bind fun _ _ => trivial

end Draft

namespace Product

open Resolve

/-- Planning resolves the elements of the basis functions and drafts their plans. -/
theorem agree_plan (cell : Cell) (p : Product α) :
    Agree (fun d => ∃ es, p.Planned cell es d) (p.plan cell) (p.plan cell) := by
  suffices hall : ∀ (bs : List BasisFunction) (d₀ : Draft α),
      Agree (fun d => ∃ es, List.Forall₂ (fun b e => Element.direct b.element = .ok e) bs es ∧
        (bs.zip es).foldlM (fun d x => d.add cell p.trialPosition x.1 x.2) d₀ = .ok d)
      (bs.foldlM (fun d b => do
        let e ← Element.resolve b.element
        ofResult (d.add cell p.trialPosition b e)) d₀)
      (bs.foldlM (fun d b => do
        let e ← Element.resolve b.element
        ofResult (d.add cell p.trialPosition b e)) d₀) by
    refine (hall p.basis Draft.empty).mono ?_
    rintro d ⟨es, hresolved, hdrafted⟩
    exact ⟨es, hresolved, hdrafted⟩
  intro bs
  induction bs with
  | nil => exact fun d₀ => .pure ⟨[], .nil, rfl⟩
  | cons b bs ih =>
    intro d₀
    rw [List.foldlM_cons]
    have hstep : Agree (fun mid => ∃ e, Element.direct b.element = .ok e ∧
        d₀.add cell p.trialPosition b e = .ok mid) (do
          let e ← Element.resolve b.element
          ofResult (d₀.add cell p.trialPosition b e)) (do
          let e ← Element.resolve b.element
          ofResult (d₀.add cell p.trialPosition b e)) :=
      (Agree.resolve b.element).bind fun e he =>
        (Agree.ofResult (.of_safe (d₀.add_safe cell p.trialPosition b e))).mono fun mid hmid =>
          ⟨e, he, hmid⟩
    refine hstep.bind fun mid hmid => (ih mid).mono ?_
    obtain ⟨e, he, hadd⟩ := hmid
    rintro d ⟨es, hes, hd⟩
    refine ⟨e :: es, .cons he hes, ?_⟩
    rw [List.zip_cons_cons, List.foldlM_cons, hadd]
    exact hd

theorem planned_of_returns {cell : Cell} {p : Product α} {d : Draft α} {c c' : Cache α} (hc : c.Faithful)
    (h : Returns (p.plan cell) c d c') : ∃ es, p.Planned cell es d := by
  obtain ⟨-, hsafe, -⟩ := agree_plan cell p c hc
  rw [show outcome (p.plan cell) c = (.ok d, c') from h] at hsafe
  exact hsafe

theorem agree_checkedBuild (cell : Cell) (numPoints : Option ℕ) {p : Product α}
    (h : ArgumentsAgree p.basis) :
    Agree (fun _ => True) (p.checkedBuild cell numPoints) (p.build cell numPoints) := by
  unfold checkedBuild build
  cases p.unpaired? with
  | some label =>
    have hthrow : Agree (fun _ => False)
        (throw (.unpairedIndex (Index.free label).name) : Resolve α PUnit)
        (throw (.unpairedIndex (Index.free label).name)) := .throw nofun
    exact hthrow.bind fun _ h => h.elim
  | none =>
    refine (agree_plan cell p).bind fun d hd => ?_
    obtain ⟨es, hplanned⟩ := hd
    exact (Agree.ofResult (checkedTerm_same (hplanned.bounded h) numPoints p)).mono fun _ _ => trivial

end Product

namespace Sum

open Resolve

theorem agree_elementOf (s : Sum α) (argument : Argument) :
    Agree (fun _ => True) (s.elementOf argument) (s.elementOf argument) := by
  unfold elementOf
  cases s.find? argument with
  | none => exact .pure trivial
  | some b => exact (Agree.resolve b.element).map fun _ _ => trivial

theorem agree_cellOf (s : Sum α) (name : String) :
    Agree (fun _ => True) (s.cellOf name : Resolve α (Option Cell)) (s.cellOf name) := by
  unfold cellOf
  cases s.basis with
  | cons b bs => exact (Agree.resolve b.element).map fun _ _ => trivial
  | nil =>
    split_ifs
    · exact .pure trivial
    · exact .throw nofun

theorem agree_checkedTerms {s : Sum α} (h : ArgumentsAgree s.basis) (numPoints : Option ℕ) :
    ∀ cell, Agree (fun _ => True) (s.checkedTerms numPoints cell) (s.buildTerms numPoints cell)
  | none => .pure trivial
  | some cell => by
    refine Agree.mapM fun p hp => Product.agree_checkedBuild cell numPoints ?_
    have hbasis {b : BasisFunction} (hb : b ∈ p.basis) : b ∈ s.basis := List.mem_flatMap.mpr ⟨p, hp, hb⟩
    exact fun b hb b' hb' => h b (hbasis hb) b' (hbasis hb')

omit [Scalar α] in
theorem assemble_safe (s : Sum α) (name : String) (test trial : Option (Element α))
    (coefficients : List (Option (Element α))) (cell : Option Cell) (terms : List (Term α)) :
    Result.Safe (fun _ => True) (s.assemble name test trial coefficients cell terms) := by
  unfold assemble
  dsimp only
  split_ifs
  · exact trivial
  · nofun

theorem agree_checked {s : Sum α} (h : ArgumentsAgree s.basis) (numPoints : Option ℕ) (name : String) :
    Agree (fun _ => True) (s.checkedBuild numPoints name) (s.build numPoints name) := by
  unfold checkedBuild build
  refine (s.agree_elementOf .test).bind fun test _ => ?_
  refine (s.agree_elementOf .trial).bind fun trial _ => ?_
  refine (Agree.mapM fun n _ => s.agree_elementOf (.function n)).bind fun coefficients _ => ?_
  refine (s.agree_cellOf name).bind fun cell _ => ?_
  refine (agree_checkedTerms h numPoints cell).bind fun terms _ => ?_
  exact (Agree.ofResult (.of_safe (s.assemble_safe name _ _ _ _ _))).mono fun _ _ => trivial

/-- Building a form whose arguments have one element each reads nothing that is not there: with all reads
checked the outcome is the same, and it is no error over a number that is out of range. The cache that is
left serves the next form. -/
theorem checkedBuild_eq_build {s : Sum α} (h : ArgumentsAgree s.basis) (numPoints : Option ℕ)
    (name : String) {c : Cache α} (hc : c.Faithful) :
    outcome (s.checkedBuild numPoints name) c = outcome (s.build numPoints name) c ∧
      (outcome (s.build numPoints name) c).1 ≠ .error .outOfRange ∧
      (outcome (s.build numPoints name) c).2.Faithful := by
  obtain ⟨hsame, hsafe, hfaithful⟩ := agree_checked h numPoints name c hc
  exact ⟨hsame, hsafe.ne_outOfRange, hfaithful⟩

/-- Test and trial functions with two values at a point, contracted, with a coefficient function. -/
def pairedAtPoint : Sum Float :=
  let value : Descriptor := .simple "Quadrature" (.simple .point) (some 1)
  let pair : Descriptor := .mixed [value, value]
  ⟨[.ofBasis [(BasisFunction.ofArgument pair .test).component (.free 0),
    (BasisFunction.ofArgument pair .trial).component (.free 0), .ofArgument value (.function 0)]]⟩

theorem checkedBuild_pairedAtPoint :
    ArgumentsAgree pairedAtPoint.basis ∧
      ∃ f, (outcome (pairedAtPoint.checkedBuild none "a") .empty).1 = .ok f ∧ f.dims = [2, 2] := by
  have hagree : ArgumentsAgree pairedAtPoint.basis := by
    unfold ArgumentsAgree
    decide
  obtain ⟨hsame, -, -⟩ := checkedBuild_eq_build hagree none "a" Cache.faithful_empty
  rw [hsame]
  exact ⟨hagree, _, rfl, rfl⟩

-- With two elements for one argument, the dofs of the first are too many for the second.
example :
    let value : Descriptor := .simple "Quadrature" (.simple .point) (some 1)
    let pair := (BasisFunction.ofArgument (.mixed [value, value]) .test).component (.fixed 0)
    let product : Product Float := .ofBasis [pair, .ofArgument value .test]
    (outcome ((Sum.mk [product]).build none "a") .empty).1 = .error .outOfRange := rfl

end Sum
end Variational
