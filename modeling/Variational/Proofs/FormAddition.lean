import Variational.Proofs.CacheTransparency
import Variational.Proofs.FormShape

/-! Forms of sums of sums. Building is written once more without a cache. A product is built on the cell of the
first basis function of the whole sum, and its own basis functions have to be on that cell, so each part of a sum
builds by itself as it does within the sum: the terms of a sum are those of its parts. -/
namespace Variational

namespace Resolve.Answers

variable {α β γ : Type} [Scalar α]

theorem map {x : Resolve α β} {r : Result β} (f : β → γ) (hx : Answers x r) :
    Answers (f <$> x) (f <$> r) := by
  have hbind := hx.bind fun b => Answers.pure (α := α) (f b)
  rwa [map_eq_pure_bind, map_eq_pure_bind]

theorem mapM {f : β → Resolve α γ} {g : β → Result γ} (h : ∀ b, Answers (f b) (g b)) (xs : List β) :
    Answers (xs.mapM f) (xs.mapM g) := by
  induction xs with
  | nil => exact pure []
  | cons x xs ih =>
    rw [List.mapM_cons, List.mapM_cons]
    exact (h x).bind fun y => ih.bind fun ys => pure (y :: ys)

theorem foldlM {f : γ → β → Resolve α γ} {g : γ → β → Result γ} (h : ∀ c b, Answers (f c b) (g c b))
    (xs : List β) (c : γ) : Answers (xs.foldlM f c) (xs.foldlM g c) := by
  induction xs generalizing c with
  | nil => exact pure c
  | cons x xs ih =>
    rw [List.foldlM_cons, List.foldlM_cons]
    exact (h c x).bind ih

end Resolve.Answers

variable {α : Type} [Scalar α]

namespace Product

/-- Planning without a cache. -/
def directPlan (cell : Cell) (p : Product α) : Result (Draft α) :=
  p.basis.foldlM (fun d b => do
    let e ← Element.direct b.element
    d.add cell p.trialPosition b e) Draft.empty

/-- The term of a product, built without a cache. -/
def direct (cell : Cell) (numPoints : Option ℕ) (p : Product α) : Result (Term α) := do
  if let some label := p.unpaired? then throw (.unpairedIndex (Index.free label).name)
  let d ← p.directPlan cell
  p.term cell numPoints d

theorem answers_build (cell : Cell) (numPoints : Option ℕ) (p : Product α) :
    Resolve.Answers (p.build cell numPoints) (p.direct cell numPoints) := by
  have hplan : Resolve.Answers (p.plan cell) (p.directPlan cell) := by
    refine Resolve.Answers.foldlM (fun d b => ?_) p.basis Draft.empty
    exact (Element.answers_resolve b.element).bind fun e => .ofResult (d.add cell p.trialPosition b e)
  unfold build direct
  cases p.unpaired? with
  | some label =>
    exact (Resolve.Answers.throw _).bind fun _ => hplan.bind fun d => .ofResult (p.term cell numPoints d)
  | none => exact hplan.bind fun d => .ofResult (p.term cell numPoints d)

/-- A basis function that is planned has an element on the cell. -/
theorem resolves_of_foldlM {cell : Cell} {trialPosition : ℕ} {bs : List BasisFunction} {d d' : Draft α}
    (h : bs.foldlM (fun d b => do
      let e ← Element.direct b.element
      d.add cell trialPosition b e) d = .ok d') :
    ∀ b ∈ bs, ∃ e : Element α, Element.direct b.element = .ok e ∧ e.cell = cell := by
  induction bs generalizing d with
  | nil => simp
  | cons b bs ih =>
    rw [List.foldlM_cons, Result.bind_eq_ok] at h
    obtain ⟨mid, hmid, hrest⟩ := h
    obtain ⟨e, he, hadd⟩ := Result.bind_eq_ok.mp hmid
    exact List.forall_mem_cons.mpr ⟨⟨e, he, (Draft.add_ok hadd).onCell⟩, ih hrest⟩

theorem direct_resolves {cell : Cell} {numPoints : Option ℕ} {p : Product α} {t : Term α}
    (h : p.direct cell numPoints = .ok t) :
    ∀ b ∈ p.basis, ∃ e : Element α, Element.direct b.element = .ok e ∧ e.cell = cell := by
  unfold direct at h
  cases hu : p.unpaired? with
  | some label =>
    rw [hu] at h
    cases h
  | none =>
    rw [hu] at h
    obtain ⟨d, hd, -⟩ := Result.bind_eq_ok.mp h
    exact resolves_of_foldlM hd

end Product

namespace Sum

/-- The element of the first basis function with a role, without a cache. -/
def directElement (s : Sum α) (a : Argument) : Result (Option (Element α)) :=
  match s.find? a with
  | some b => some <$> Element.direct b.element
  | none => pure none

/-- The cell of the first basis function, without a cache. -/
def directCell (s : Sum α) (name : String) : Result (Option Cell) :=
  match s.basis with
  | b :: _ => (fun e : Element α => some e.cell) <$> Element.direct b.element
  | [] => if s.products.isEmpty then pure none else throw (.noBasisFunctions name)

def directTerms (numPoints : Option ℕ) (s : Sum α) : Option Cell → Result (List (Term α))
  | some cell => s.products.mapM (·.direct cell numPoints)
  | none => pure []

/-- The form of a sum, built without a cache. -/
def direct (numPoints : Option ℕ) (name : String) (s : Sum α) : Result (Form α) := do
  let test ← s.directElement .test
  let trial ← s.directElement .trial
  let coefficients ← (List.range s.numFunctions).mapM fun n => s.directElement (.function n)
  let cell ← s.directCell name
  let terms ← s.directTerms numPoints cell
  s.assemble name test trial coefficients cell terms

theorem answers_elementOf (s : Sum α) (a : Argument) :
    Resolve.Answers (s.elementOf a) (s.directElement a) := by
  unfold elementOf directElement
  cases s.find? a with
  | none => exact .pure none
  | some b => exact (Element.answers_resolve b.element).map some

theorem answers_cellOf (s : Sum α) (name : String) :
    Resolve.Answers (s.cellOf name : Resolve α (Option Cell)) (s.directCell name) := by
  unfold cellOf directCell
  cases s.basis with
  | cons b bs => exact (Element.answers_resolve b.element).map fun e : Element α => some e.cell
  | nil =>
    dsimp only
    split_ifs
    · exact .pure none
    · exact .throw _

theorem answers_build (numPoints : Option ℕ) (name : String) (s : Sum α) :
    Resolve.Answers (s.build numPoints name) (s.direct numPoints name) := by
  refine (s.answers_elementOf .test).bind fun test => ?_
  refine (s.answers_elementOf .trial).bind fun trial => ?_
  refine (Resolve.Answers.mapM (fun n => s.answers_elementOf (.function n)) _).bind fun coefficients => ?_
  refine (s.answers_cellOf name).bind fun cell => ?_
  have hterms : Resolve.Answers (s.buildTerms numPoints cell) (s.directTerms numPoints cell) := by
    cases cell with
    | none => exact .pure []
    | some cell => exact .mapM (fun p => p.answers_build cell numPoints) s.products
  exact hterms.bind fun terms => .ofResult _

/-- The form of a sum, on the cache that earlier resolutions have left. -/
def formAfter (earlier : List Descriptor) (numPoints : Option ℕ) (name : String) (s : Sum α) :
    Result (Form α) :=
  (Resolve.outcome (s.build numPoints name) (Resolve.session earlier .empty).2).1

theorem formAfter_eq_direct (earlier : List Descriptor) (numPoints : Option ℕ) (name : String)
    (s : Sum α) : s.formAfter earlier numPoints name = s.direct numPoints name :=
  (s.answers_build numPoints name _ (Resolve.session_answers earlier Cache.faithful_empty).2.2).1

section Parts

variable (s t : Sum α)

omit [Scalar α] in
theorem countOf_append (ns ms : List ℕ) : countOf (ns ++ ms) = max (countOf ns) (countOf ms) := by
  induction ns with
  | nil => simp [countOf]
  | cons n ns ih =>
    simp only [countOf, List.map_cons, List.cons_append, List.foldr_cons] at ih ⊢
    rw [ih, max_assoc]

omit [Scalar α] in
@[simp] theorem products_add : (s + t).products = s.products ++ t.products := rfl

omit [Scalar α] in
theorem basis_add : (s + t).basis = s.basis ++ t.basis := List.flatMap_append

omit [Scalar α] in
theorem find?_add (a : Argument) : (s + t).find? a = (s.find? a).or (t.find? a) := by
  rw [find?, basis_add, List.find?_append]
  rfl

omit [Scalar α] in
theorem numFunctions_add : (s + t).numFunctions = max s.numFunctions t.numFunctions := by
  rw [numFunctions, products_add, List.flatMap_append, countOf_append]
  rfl

omit [Scalar α] in
theorem numConstants_add : (s + t).numConstants = max s.numConstants t.numConstants := by
  rw [numConstants, products_add, List.flatMap_append, countOf_append]
  rfl

end Parts

/-- All basis functions have elements on the cell. -/
def On (s : Sum α) (cell : Cell) : Prop :=
  ∀ b ∈ s.basis, ∃ e : Element α, Element.direct b.element = .ok e ∧ e.cell = cell

/-- The element of a role, if the sum has a basis function with it. -/
def element? (s : Sum α) (a : Argument) : Option (Element α) :=
  (s.find? a).bind fun b => (Element.direct b.element).toOption

theorem On.directElement {s : Sum α} {cell : Cell} (h : s.On cell) (a : Argument) :
    s.directElement a = .ok (s.element? a) := by
  unfold Sum.directElement element?
  cases hb : s.find? a with
  | none => rfl
  | some b =>
    obtain ⟨e, he, -⟩ := h b (List.mem_of_find?_eq_some hb)
    simp only [Option.bind_some, he]
    rfl

theorem On.directCell {s : Sum α} {cell : Cell} (h : s.On cell) (hs : s.basis ≠ []) (name : String) :
    s.directCell name = .ok (some cell) := by
  obtain ⟨b, bs, hb⟩ := List.exists_cons_of_ne_nil hs
  obtain ⟨e, he, rfl⟩ := h b (by rw [hb]; exact List.mem_cons_self)
  simp only [Sum.directCell, hb, he]
  rfl

/-- The element of a role comes from the first part that has it. -/
theorem On.element?_add {s : Sum α} {cell : Cell} (h : s.On cell) (t : Sum α) (a : Argument) :
    (s + t).element? a = (s.element? a).or (t.element? a) := by
  rw [element?, find?_add]
  cases hb : s.find? a with
  | none => rw [Option.none_or, element?, hb]; rfl
  | some b =>
    obtain ⟨e, he, -⟩ := h b (List.mem_of_find?_eq_some hb)
    rw [Option.some_or, Option.bind_some, element?, hb, Option.bind_some, he]
    rfl

theorem on_of_mapM {s : Sum α} {cell : Cell} {numPoints : Option ℕ} {terms : List (Term α)}
    (h : s.products.mapM (·.direct cell numPoints) = .ok terms) : s.On cell := by
  intro b hb
  obtain ⟨p, hp, hb⟩ := List.mem_flatMap.mp hb
  obtain ⟨t, -, ht⟩ := Result.exists_of_forall₂ (Result.mapM_eq_ok.mp h) hp
  exact Product.direct_resolves ht b hb

/-- The form with the given terms. -/
def formOf (s : Sum α) (name : String) (cell : Cell) (terms : List (Term α)) : Form α where
  name
  interior := terms.filter (·.integral = .interior)
  boundary := terms.filter (·.integral = .boundary)
  coefficients := (List.range s.numFunctions).map fun n => s.element? (.function n)
  cell := some cell
  dims := ((terms.filter (·.integral = .interior) ++ terms.filter (·.integral = .boundary)).head?.map
    (·.reference.primary.dims)).getD []
  numCoefficients := s.numFunctions
  numConstants := s.numConstants
  arguments := [s.element? .test, s.element? .trial].filterMap id
  format := .header

omit [Scalar α] in
/-- Terms of both kinds are all terms. -/
theorem mem_ordered {terms : List (Term α)} {t : Term α} :
    t ∈ terms.filter (·.integral = .interior) ++ terms.filter (·.integral = .boundary) ↔ t ∈ terms := by
  cases hk : t.integral <;> simp [hk]

/-- All ranks are equal if all are the first. -/
theorem all_head_iff (ranks : List ℕ) :
    ranks.all (ranks.head? == some ·) = true ↔ ∀ r ∈ ranks, r = ranks.head?.getD 0 := by
  cases ranks with
  | nil => simp
  | cons r rs =>
    simp only [List.all_eq_true, List.head?_cons, beq_iff_eq, Option.some.injEq, Option.getD_some]
    exact forall₂_congr fun _ _ => eq_comm

theorem rank_formOf_eq (s : Sum α) (name : String) (cell : Cell) (terms : List (Term α)) :
    (s.formOf name cell terms).rank =
      ((terms.filter (·.integral = .interior) ++ terms.filter (·.integral = .boundary)).map
        (·.reference.primary.rank)).head?.getD 0 := by
  rw [Form.rank, formOf, List.head?_map]
  cases (terms.filter (·.integral = .interior) ++ terms.filter (·.integral = .boundary)).head? <;> rfl

/-- Terms assemble if all of them have the rank of the form. -/
theorem assemble_eq_ok_iff {s : Sum α} {name : String} {cell : Cell} {terms : List (Term α)} {f : Form α} :
    s.assemble name (s.element? .test) (s.element? .trial)
        ((List.range s.numFunctions).map fun n => s.element? (.function n)) (some cell) terms = .ok f ↔
      f = s.formOf name cell terms ∧ ∀ t ∈ terms, t.reference.primary.rank = f.rank := by
  have hranks := all_head_iff ((terms.filter (·.integral = .interior) ++
    terms.filter (·.integral = .boundary)).map (·.reference.primary.rank))
  rw [← rank_formOf_eq s name cell, List.forall_mem_map] at hranks
  simp only [mem_ordered] at hranks
  constructor
  · intro h
    unfold assemble at h
    dsimp only at h
    split_ifs at h with hall
    obtain rfl := Except.ok.inj h
    exact ⟨rfl, hranks.mp hall⟩
  · rintro ⟨rfl, h⟩
    exact if_pos (hranks.mpr h)

theorem On.direct {s : Sum α} {cell : Cell} (h : s.On cell) (hs : s.basis ≠ []) (numPoints : Option ℕ)
    (name : String) :
    s.direct numPoints name = s.products.mapM (·.direct cell numPoints) >>=
      s.assemble name (s.element? .test) (s.element? .trial)
        ((List.range s.numFunctions).map fun n => s.element? (.function n)) (some cell) := by
  have hcoefficients := Result.mapM_of_forall fun n (_ : n ∈ List.range s.numFunctions) =>
    h.directElement (.function n)
  rw [Sum.direct, h.directElement, h.directElement, hcoefficients, h.directCell hs]
  rfl

/-- A sum with basis functions builds if its products do on one cell, with terms of one rank. -/
theorem direct_eq_ok_iff {s : Sum α} (hs : s.basis ≠ []) {numPoints : Option ℕ} {name : String}
    {f : Form α} :
    s.direct numPoints name = .ok f ↔
      ∃ cell terms, s.products.mapM (·.direct cell numPoints) = .ok terms ∧
        f = s.formOf name cell terms ∧ ∀ t ∈ terms, t.reference.primary.rank = f.rank := by
  constructor
  · intro h
    have hparts := h
    simp only [Sum.direct, Result.bind_eq_ok] at hparts
    obtain ⟨-, -, -, -, -, -, o, ho, terms, hterms, -⟩ := hparts
    obtain ⟨b, bs, hb⟩ := List.exists_cons_of_ne_nil hs
    simp only [directCell, hb, map_eq_pure_bind, Result.bind_eq_ok] at ho
    obtain ⟨e, -, he⟩ := ho
    obtain rfl := Result.pure_eq_ok.mp he
    rw [(on_of_mapM hterms).direct hs, Result.bind_eq_ok] at h
    obtain ⟨terms, hterms, hf⟩ := h
    exact ⟨e.cell, terms, hterms, assemble_eq_ok_iff.mp hf⟩
  · rintro ⟨cell, terms, hterms, hf⟩
    rw [(on_of_mapM hterms).direct hs, hterms, Result.ok_bind]
    exact assemble_eq_ok_iff.mpr hf

theorem mapM_direct_add {s t : Sum α} {cell : Cell} {numPoints : Option ℕ} {terms : List (Term α)} :
    (s + t).products.mapM (·.direct cell numPoints) = .ok terms ↔
      ∃ first, s.products.mapM (·.direct cell numPoints) = .ok first ∧
        ∃ rest, t.products.mapM (·.direct cell numPoints) = .ok rest ∧ first ++ rest = terms := by
  simp only [products_add, List.mapM_append, Result.bind_eq_ok, Result.pure_eq_ok]

/-- A sum with basis functions has terms. -/
theorem exists_mem_terms {s : Sum α} (hs : s.basis ≠ []) {cell : Cell} {numPoints : Option ℕ}
    {terms : List (Term α)} (h : s.products.mapM (·.direct cell numPoints) = .ok terms) :
    ∃ t, t ∈ terms := by
  obtain ⟨b, hb⟩ := List.exists_mem_of_ne_nil s.basis hs
  obtain ⟨p, hp, -⟩ := List.mem_flatMap.mp hb
  obtain ⟨t, ht, -⟩ := Result.exists_of_forall₂ (Result.mapM_eq_ok.mp h) hp
  exact ⟨t, ht⟩

/-- The rank of a form is that of its terms. -/
theorem rank_formOf (s : Sum α) (name : String) (cell : Cell) {terms : List (Term α)} {r : ℕ}
    (hterms : ∃ t, t ∈ terms) (h : ∀ t ∈ terms, t.reference.primary.rank = r) :
    (s.formOf name cell terms).rank = r := by
  obtain ⟨t, ht⟩ := hterms
  obtain ⟨first, rest, hfirst⟩ := List.exists_cons_of_ne_nil (List.ne_nil_of_mem (mem_ordered.mpr ht))
  rw [rank_formOf_eq, hfirst]
  exact h first (mem_ordered.mp (by rw [hfirst]; exact List.mem_cons_self))

/-- A role without a basis function has no element. -/
theorem element?_function_of_le {s : Sum α} {n : ℕ} (h : s.numFunctions ≤ n) :
    s.element? (.function n) = none := by
  have hnone : s.find? (.function n) = none := by
    rw [find?, List.find?_eq_none]
    intro b hb hargument
    obtain ⟨p, hp, hb⟩ := List.mem_flatMap.mp hb
    have hlt := lt_numFunctions hp hb (of_decide_eq_true hargument)
    omega
  rw [element?, hnone]
  rfl

theorem getD_coefficients (s : Sum α) (name : String) (cell : Cell) (terms : List (Term α)) (n : ℕ) :
    (s.formOf name cell terms).coefficients.getD n none = s.element? (.function n) := by
  by_cases hn : n < s.numFunctions
  · simp [formOf, List.getD_eq_getElem?_getD, hn]
  · rw [element?_function_of_le (by omega)]
    simp [formOf, List.getD_eq_getElem?_getD, hn]

end Sum

/-- The third form is the first with the terms of the second after its own ones, and with the coefficients of
the second where it has none. -/
structure Form.Joins (f g h : Form α) : Prop where
  interior : h.interior = f.interior ++ g.interior
  boundary : h.boundary = f.boundary ++ g.boundary
  rank : h.rank = f.rank ∧ h.rank = g.rank
  cell : h.cell = f.cell ∧ h.cell = g.cell
  numCoefficients : h.numCoefficients = max f.numCoefficients g.numCoefficients
  numConstants : h.numConstants = max f.numConstants g.numConstants
  coefficients : h.coefficients = (List.range h.numCoefficients).map fun n =>
    (f.coefficients.getD n none).or (g.coefficients.getD n none)

namespace Sum

/-- Terms that are built on one cell, all of one rank, make the forms of the parts and of the sum. -/
theorem joins_formOf {s : Sum α} (t : Sum α) (name : String) {cell : Cell} (hon : s.On cell)
    {first rest : List (Term α)} {r : ℕ} (hfirst : ∃ x, x ∈ first) (hrest : ∃ x, x ∈ rest)
    (hr : ∀ x ∈ first ++ rest, x.reference.primary.rank = r) :
    (s.formOf name cell first).Joins (t.formOf name cell rest)
      ((s + t).formOf name cell (first ++ rest)) := by
  have hall := List.forall_mem_append.mp hr
  have hboth : ∃ x, x ∈ first ++ rest := hfirst.imp fun x => List.mem_append_left rest
  refine ⟨List.filter_append _ _, List.filter_append _ _, ?_, ⟨rfl, rfl⟩, numFunctions_add s t,
    numConstants_add s t, ?_⟩
  · rw [rank_formOf _ _ _ hfirst hall.1, rank_formOf _ _ _ hrest hall.2, rank_formOf _ _ _ hboth hr]
    exact ⟨rfl, rfl⟩
  · simp only [getD_coefficients]
    exact List.map_congr_left fun n _ => hon.element?_add t (.function n)

/-- Sums with basis functions build together exactly when each builds by itself, both on one cell and with one
rank; the form of the sum then joins the two forms. This does not depend on what is in the caches. -/
theorem formAfter_add {s t : Sum α} (hs : s.basis ≠ []) (ht : t.basis ≠ [])
    (earlier earlier' earlier'' : List Descriptor) (numPoints : Option ℕ) (name : String) :
    (∀ f g, s.formAfter earlier numPoints name = .ok f → t.formAfter earlier' numPoints name = .ok g →
      f.rank = g.rank → f.cell = g.cell →
      ∃ h, (s + t).formAfter earlier'' numPoints name = .ok h ∧ f.Joins g h) ∧
    ∀ h, (s + t).formAfter earlier'' numPoints name = .ok h →
      ∃ f g, s.formAfter earlier numPoints name = .ok f ∧ t.formAfter earlier' numPoints name = .ok g ∧
        f.Joins g h := by
  have hst : (s + t).basis ≠ [] := by
    rw [basis_add]
    exact List.append_ne_nil_of_left_ne_nil hs _
  simp only [formAfter_eq_direct, direct_eq_ok_iff hs, direct_eq_ok_iff ht, direct_eq_ok_iff hst]
  constructor
  · rintro f g ⟨cell, first, hfirst, rfl, hf⟩ ⟨cell', rest, hrest, rfl, hg⟩ hrank hcell
    obtain rfl : cell = cell' := Option.some.inj hcell
    rw [← hrank] at hg
    have hjoins := joins_formOf t name (on_of_mapM hfirst) (exists_mem_terms hs hfirst)
      (exists_mem_terms ht hrest) (List.forall_mem_append.mpr ⟨hf, hg⟩)
    refine ⟨_, ⟨cell, _, mapM_direct_add.mpr ⟨first, hfirst, rest, hrest, rfl⟩, rfl, ?_⟩, hjoins⟩
    rw [hjoins.rank.1]
    exact List.forall_mem_append.mpr ⟨hf, hg⟩
  · rintro h ⟨cell, terms, hterms, rfl, hh⟩
    obtain ⟨first, hfirst, rest, hrest, rfl⟩ := mapM_direct_add.mp hterms
    have hjoins := joins_formOf t name (on_of_mapM hfirst) (exists_mem_terms hs hfirst)
      (exists_mem_terms ht hrest) hh
    obtain ⟨hf, hg⟩ := List.forall_mem_append.mp hh
    refine ⟨_, _, ⟨cell, first, hfirst, rfl, ?_⟩, ⟨cell, rest, hrest, rfl, ?_⟩, hjoins⟩
    · rwa [← hjoins.rank.1]
    · rwa [← hjoins.rank.2]

/-- A value at a point, tested with a coefficient function of the given number. -/
def testedWith (n : ℕ) : Sum Float :=
  let value : Descriptor := .simple "Quadrature" (.simple .point) (some 1)
  ⟨[.ofBasis [.ofArgument value .test, .ofArgument value (.function n)]]⟩

theorem formAfter_testedWith :
    (testedWith 2).basis ≠ [] ∧ (testedWith 0).basis ≠ [] ∧
      ∃ h, (testedWith 2 + testedWith 0).formAfter [] none "a" = .ok h ∧ h.rank = 1 ∧
      h.interior.length = 2 ∧ h.numCoefficients = 3 ∧
      h.coefficients.map Option.isSome = [true, false, true] := by
  have hs : (testedWith 2).basis ≠ [] := by simp [testedWith, Sum.basis, Product.ofBasis]
  have ht : (testedWith 0).basis ≠ [] := by simp [testedWith, Sum.basis, Product.ofBasis]
  obtain ⟨hjoin, -⟩ := formAfter_add hs ht [] [] [] none "a"
  obtain ⟨h, hh, hjoins⟩ := hjoin _ _ rfl rfl rfl rfl
  refine ⟨hs, ht, h, hh, hjoins.rank.1, ?_, hjoins.numCoefficients, ?_⟩
  · rw [hjoins.interior]
    rfl
  · rw [hjoins.coefficients, hjoins.numCoefficients]
    rfl

end Sum
end Variational
