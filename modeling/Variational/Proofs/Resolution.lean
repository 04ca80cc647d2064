import Mathlib
import Variational.Proofs.Composition

/-! Runs of the resolution of descriptors. A run only adds entries to the cache, and a property of
elements that every way of building an element keeps holds of all that a run stores and returns. -/
namespace Variational

namespace Cache

variable {α : Type}

/-- The later cache has the entries of the earlier one, in their places, and maybe more. -/
def Extends (c c' : Cache α) : Prop := c.entries <+: c'.entries

/-- All stored elements have a property. -/
def All (P : Element α → Prop) (c : Cache α) : Prop := ∀ entry ∈ c.entries, P entry.2

theorem Extends.refl (c : Cache α) : c.Extends c := List.prefix_rfl

theorem Extends.trans {a b c : Cache α} (h : a.Extends b) (h' : b.Extends c) : a.Extends c :=
  List.IsPrefix.trans h h'

theorem Extends.find? {c c' : Cache α} (h : c.Extends c') {d : Descriptor} {e : Element α}
    (he : c.find? d = some e) : c'.find? d = some e := by
  obtain ⟨more, hmore⟩ := h
  unfold Cache.find? at he ⊢
  obtain ⟨entry, hentry, rfl⟩ := Option.map_eq_some_iff.mp he
  rw [← hmore, List.find?_append, hentry]
  rfl

theorem extends_insert (c : Cache α) (d : Descriptor) (e : Element α) : c.Extends (c.insert d e) := by
  unfold insert
  split
  · exact Extends.refl c
  · exact List.prefix_append _ _

theorem all_empty (P : Element α → Prop) : (empty : Cache α).All P := by simp [All, empty]

theorem All.find? {P : Element α → Prop} {c : Cache α} (h : c.All P) {d : Descriptor}
    {e : Element α} (he : c.find? d = some e) : P e := by
  obtain ⟨entry, hentry, rfl⟩ := Option.map_eq_some_iff.mp he
  exact h entry (List.mem_of_find?_eq_some hentry)

theorem All.insert {P : Element α → Prop} {c : Cache α} (h : c.All P) (d : Descriptor)
    {e : Element α} (he : P e) : (c.insert d e).All P := by
  unfold Cache.insert
  split
  · exact h
  · intro entry hentry
    rcases List.mem_append.mp hentry with hentry | hentry
    · exact h entry hentry
    · obtain rfl := List.mem_singleton.mp hentry
      exact he

end Cache

namespace Resolve

variable {α β γ : Type}

/-- The answer of a computation on a cache, and the cache that it leaves. -/
def outcome (x : Resolve α β) (c : Cache α) : Result β × Cache α := x.run.run c

/-- The computation succeeds on a cache with a value and leaves another cache. -/
def Returns (x : Resolve α β) (c : Cache α) (b : β) (c' : Cache α) : Prop :=
  outcome x c = (.ok b, c')

theorem outcome_pure (b : β) (c : Cache α) : outcome (pure b : Resolve α β) c = (.ok b, c) := rfl

theorem outcome_throw (e : Error) (c : Cache α) :
    outcome (throw e : Resolve α β) c = (.error e, c) := rfl

theorem outcome_bind (x : Resolve α β) (f : β → Resolve α γ) (c : Cache α) :
    outcome (x >>= f) c = match outcome x c with
      | (.ok b, c') => outcome (f b) c'
      | (.error e, c') => (.error e, c') := by
  unfold outcome
  rw [ExceptT.run_bind, StateT.run_bind]
  rcases x.run.run c with ⟨_ | b, c'⟩ <;> rfl

theorem outcome_cached [Scalar α] (d : Descriptor) (x : Resolve α (Element α)) (c : Cache α) :
    outcome (cached d x) c = match c.find? d with
      | some e => (.ok e, c)
      | none => match outcome x c with
        | (.ok e, c') => (.ok ((c'.find? d).getD e), c'.insert d e)
        | (.error err, c') => (.error err, c') := by
  unfold cached
  rw [outcome_bind]
  change outcome (match c.find? d with | some e => (pure e : Resolve α _) | none => _) c = _
  cases c.find? d with
  | some e => rfl
  | none =>
    simp only
    rw [outcome_bind]
    rcases outcome x c with ⟨_ | e, c'⟩ <;> rfl

theorem returns_pure {b b' : β} {c c' : Cache α} :
    Returns (pure b : Resolve α β) c b' c' ↔ b = b' ∧ c = c' := by
  simp [Returns, outcome_pure]

theorem not_returns_throw {e : Error} {b : β} {c c' : Cache α} :
    ¬ Returns (throw e : Resolve α β) c b c' := by
  simp [Returns, outcome_throw]

theorem returns_bind {x : Resolve α β} {f : β → Resolve α γ} {c c' : Cache α} {b : γ} :
    Returns (x >>= f) c b c' ↔ ∃ a c₁, Returns x c a c₁ ∧ Returns (f a) c₁ b c' := by
  unfold Returns
  rw [outcome_bind]
  rcases outcome x c with ⟨_ | a, c₁⟩ <;> simp

theorem returns_map {x : Resolve α β} {f : β → γ} {c c' : Cache α} {b : γ} :
    Returns (f <$> x) c b c' ↔ ∃ a, Returns x c a c' ∧ f a = b := by
  rw [map_eq_pure_bind, returns_bind]
  simp [returns_pure]

theorem returns_ofResult [Scalar α] {r : Result β} {b : β} {c c' : Cache α} :
    Returns (ofResult r : Resolve α β) c b c' ↔ r = .ok b ∧ c = c' := by
  cases r with
  | ok a => simp [ofResult, returns_pure]
  | error e => simp [ofResult, not_returns_throw]

/-- What is returned is what the cache then has for the descriptor. -/
theorem returns_cached_find [Scalar α] {d : Descriptor} {x : Resolve α (Element α)} {c c' : Cache α}
    {e : Element α} (h : Returns (cached d x) c e c') : c'.find? d = some e := by
  unfold Returns at h
  rw [outcome_cached] at h
  cases hc : c.find? d with
  | some e' =>
    simp only [hc, Prod.mk.injEq, Except.ok.injEq] at h
    rw [← h.1, ← h.2, hc]
  | none =>
    simp only [hc] at h
    rcases hx : outcome x c with ⟨_ | a, c₁⟩
    · simp [hx] at h
    · simp only [hx, Prod.mk.injEq, Except.ok.injEq] at h
      rw [← h.1, ← h.2, Cache.find?_insert]

/-- Whenever the computation succeeds it has only added entries. -/
def Grows (x : Resolve α β) : Prop := ∀ {c b c'}, Returns x c b c' → c.Extends c'

/-- The steps of a sequence of computations, each on the cache that the steps before it left. -/
theorem returns_mapM {f : β → Resolve α γ} {xs : List β} (hf : ∀ x ∈ xs, Grows (f x)) {c c' : Cache α}
    {ys : List γ} (h : Returns (xs.mapM f) c ys c') : c.Extends c' ∧
      List.Forall₂ (fun x y => ∃ c₁ c₂, Returns (f x) c₁ y c₂ ∧ c₂.Extends c') xs ys := by
  induction xs generalizing c ys with
  | nil =>
    rw [List.mapM_nil, returns_pure] at h
    obtain ⟨rfl, rfl⟩ := h
    exact ⟨Cache.Extends.refl c, .nil⟩
  | cons x xs ih =>
    rw [List.forall_mem_cons] at hf
    simp only [List.mapM_cons, returns_bind, returns_pure] at h
    obtain ⟨y, c₁, hy, zs, c₂, hzs, rfl, rfl⟩ := h
    obtain ⟨hext, hrest⟩ := ih hf.2 hzs
    exact ⟨(hf.1 hy).trans hext, .cons ⟨c, c₁, hy, hext⟩ hrest⟩

/-- Started from a cache whose elements have a property, the computation only adds elements with the
property, and what it returns satisfies the postcondition. -/
def Keeps (P : Element α → Prop) (post : β → Prop) (x : Resolve α β) : Prop :=
  ∀ c : Cache α, c.All P → c.Extends (outcome x c).2 ∧ (outcome x c).2.All P ∧
    ∀ b, (outcome x c).1 = .ok b → post b

namespace Keeps

variable {P : Element α → Prop}

theorem pure {post : β → Prop} {b : β} (h : post b) : Keeps P post (pure b : Resolve α β) := by
  intro c hc
  refine ⟨Cache.Extends.refl c, hc, fun a ha => ?_⟩
  obtain rfl : b = a := Except.ok.inj ha
  exact h

theorem throw {post : β → Prop} (e : Error) : Keeps P post (throw e : Resolve α β) := by
  intro c hc
  refine ⟨Cache.Extends.refl c, hc, fun a ha => ?_⟩
  cases ha

theorem ofResult [Scalar α] {post : β → Prop} {r : Result β} (h : ∀ b, r = .ok b → post b) :
    Keeps P post (ofResult r : Resolve α β) := by
  cases r with
  | ok b => exact pure (h b rfl)
  | error e => exact throw e

theorem bind {mid : β → Prop} {post : γ → Prop} {x : Resolve α β} {f : β → Resolve α γ}
    (hx : Keeps P mid x) (hf : ∀ b, mid b → Keeps P post (f b)) : Keeps P post (x >>= f) := by
  intro c hc
  obtain ⟨hext, hall, hpost⟩ := hx c hc
  rw [outcome_bind]
  rcases hrun : outcome x c with ⟨_ | b, c₁⟩
  · rw [hrun] at hext hall
    exact ⟨hext, hall, fun a ha => by cases ha⟩
  · rw [hrun] at hext hall hpost
    obtain ⟨hext', hall', hpost'⟩ := hf b (hpost b rfl) c₁ hall
    exact ⟨hext.trans hext', hall', hpost'⟩

theorem cached [Scalar α] {d : Descriptor} {x : Resolve α (Element α)} (hx : Keeps P P x) :
    Keeps P P (cached d x) := by
  intro c hc
  rw [outcome_cached]
  cases hfind : c.find? d with
  | some e =>
    refine ⟨Cache.Extends.refl c, hc, fun a ha => ?_⟩
    obtain rfl : e = a := Except.ok.inj ha
    exact hc.find? hfind
  | none =>
    obtain ⟨hext, hall, hpost⟩ := hx c hc
    rcases hrun : outcome x c with ⟨_ | e, c₁⟩
    · rw [hrun] at hext hall
      exact ⟨hext, hall, fun a ha => by cases ha⟩
    · rw [hrun] at hext hall hpost
      have hnew := hall.insert d (hpost e rfl)
      refine ⟨hext.trans (Cache.extends_insert c₁ d e), hnew, fun a ha => ?_⟩
      obtain rfl : (c₁.find? d).getD e = a := Except.ok.inj ha
      exact hnew.find? (Cache.find?_insert c₁ d e)

theorem of_returns {post : β → Prop} {x : Resolve α β} (hx : Keeps P post x) {c c' : Cache α} {b : β}
    (hc : c.All P) (h : Returns x c b c') : c.Extends c' ∧ c'.All P ∧ post b := by
  obtain ⟨hext, hall, hpost⟩ := hx c hc
  rw [show outcome x c = (.ok b, c') from h] at hext hall hpost
  exact ⟨hext, hall, hpost b rfl⟩

end Keeps
end Resolve

namespace Element

variable {α : Type} [Scalar α]

/-- Induction along the resolution of a descriptor and of the parts of a sum. What is below a restriction is not
resolved, so a restriction is a base case, as an element and as a part. -/
theorem resolution_induction {P : Descriptor → Prop} {Q : List Descriptor → Prop}
    (simple : ∀ family cell degree, P (.simple family cell degree))
    (enriched : ∀ a b, P a → P b → P (.enriched a b)) (product : ∀ a b, P a → P b → P (.product a b))
    (wrapped : ∀ space d, P d → P (.wrapped space d)) (mixed : ∀ ds, Q ds → P (.mixed ds))
    (restrictedSum : ∀ ds domain, P (.restricted (.mixed ds) domain))
    (restricted : ∀ d domain, (∀ ds, d ≠ .mixed ds) → P (.restricted d domain))
    (other : ∀ name, P (.other name)) (nil : Q [])
    (sum : ∀ inner ds, Q inner → Q ds → Q (.mixed inner :: ds))
    (restrictedPart : ∀ d domain ds, Q ds → Q (.restricted d domain :: ds))
    (part : ∀ d ds, (∀ inner, d ≠ .mixed inner) → (∀ a domain, d ≠ .restricted a domain) → P d → Q ds →
      Q (d :: ds)) : (∀ d, P d) ∧ ∀ ds, Q ds :=
  resolve.mutual_induct P Q simple enriched product wrapped mixed restrictedSum restricted other nil sum
    restrictedPart part

/-- A property that every way of building an element keeps. -/
structure Closed (P : Element α → Prop) : Prop where
  family {family : String} {cell : Cell} {degree : Option ℕ} {e : Element α} :
    ofFamily family cell degree = .ok e → P e
  restrict {e : Element α} {domain : Domain} {indices : List ℕ} :
    P e → selectIndices e.layout domain = .ok indices → P (restricted e indices domain)
  enrich {a b e : Element α} : P a → P b → enrich a b = .ok e → P e
  tensor {a b e : Element α} : P a → P b → tensor a b = .ok e → P e
  wrap {space : SobolevSpace} {a e : Element α} : P a → wrap space a = .ok e → P e
  mix {parts : List (Element α)} {e : Element α} : (∀ a ∈ parts, P a) → mix parts = .ok e → P e

namespace Closed

variable {P : Element α → Prop}

theorem restrictFamily (h : Closed P) {family : String} {cell : Cell} {degree : Option ℕ}
    {domain : Domain} {e : Element α} (he : restrictFamily family cell degree domain = .ok e) :
    P e := by
  obtain ⟨a, indices, ha, hindices, rfl⟩ := restrictFamily_ok he
  exact h.restrict (h.family ha) hindices

theorem resolveRestricted (h : Closed P) (d : Descriptor) (domain : Domain) :
    Resolve.Keeps P P (resolveRestricted d domain) := by
  apply Resolve.Keeps.cached
  split
  · exact Resolve.Keeps.ofResult fun _ he => h.restrictFamily he
  · exact Resolve.Keeps.throw _

theorem singleton (h : Closed P) (d : Descriptor) (domain : Domain) :
    Resolve.Keeps P (∀ e ∈ ·, P e) (do return [← Element.resolveRestricted d domain]) :=
  Resolve.Keeps.bind (h.resolveRestricted d domain) fun _ he =>
    Resolve.Keeps.pure (List.forall_mem_singleton.mpr he)

mutual

theorem restrictedParts (h : Closed P) : ∀ (domain : Domain) (d : Descriptor),
    Resolve.Keeps P (∀ e ∈ ·, P e) (restrictedParts domain d)
  | domain, .mixed ds => by
    rw [Element.restrictedParts]
    exact restrictedPartsOfList h domain ds
  | _, .restricted d inner => by
    rw [Element.restrictedParts]
    exact restrictedParts h inner d
  | domain, .simple f c n => h.singleton (.simple f c n) domain
  | domain, .enriched a b => h.singleton (.enriched a b) domain
  | domain, .product a b => h.singleton (.product a b) domain
  | domain, .wrapped s d => h.singleton (.wrapped s d) domain
  | domain, .other name => h.singleton (.other name) domain

theorem restrictedPartsOfList (h : Closed P) : ∀ (domain : Domain) (ds : List Descriptor),
    Resolve.Keeps P (∀ e ∈ ·, P e) (restrictedPartsOfList domain ds)
  | _, [] => Resolve.Keeps.pure (by simp)
  | domain, d :: ds => Resolve.Keeps.bind (restrictedParts h domain d) fun first hfirst =>
      Resolve.Keeps.bind (restrictedPartsOfList h domain ds) fun rest hrest =>
        Resolve.Keeps.pure (List.forall_mem_append.mpr ⟨hfirst, hrest⟩)

end

theorem resolve_and_parts (h : Closed P) : (∀ d, Resolve.Keeps P P (resolve d)) ∧
    ∀ ds, Resolve.Keeps P (∀ e ∈ ·, P e) (resolveParts ds) := by
  apply resolution_induction
  case simple =>
    intro family cell degree
    rw [resolve]
    exact Resolve.Keeps.cached (Resolve.Keeps.ofResult fun _ he => h.family he)
  case enriched =>
    intro a b ha hb
    rw [resolve]
    exact Resolve.Keeps.cached (Resolve.Keeps.bind ha fun x hx => Resolve.Keeps.bind hb fun y hy =>
      Resolve.Keeps.ofResult fun _ he => h.enrich hx hy he)
  case product =>
    intro a b ha hb
    rw [resolve]
    exact Resolve.Keeps.cached (Resolve.Keeps.bind ha fun x hx => Resolve.Keeps.bind hb fun y hy =>
      Resolve.Keeps.ofResult fun _ he => h.tensor hx hy he)
  case wrapped =>
    intro space d hd
    rw [resolve]
    apply Resolve.Keeps.cached
    split
    · refine Resolve.Keeps.bind (?_ : Resolve.Keeps P (fun _ => True) _) fun _ _ =>
        Resolve.Keeps.bind hd fun x hx => Resolve.Keeps.ofResult fun _ he => h.wrap hx he
      exact Resolve.Keeps.throw _
    · exact Resolve.Keeps.bind hd fun x hx => Resolve.Keeps.ofResult fun _ he => h.wrap hx he
  case mixed =>
    intro ds hds
    rw [resolve]
    exact Resolve.Keeps.cached (Resolve.Keeps.bind hds fun parts hparts =>
      Resolve.Keeps.ofResult fun _ he => h.mix hparts he)
  case restrictedSum =>
    intro ds domain
    rw [resolve]
    exact Resolve.Keeps.cached (Resolve.Keeps.bind (h.restrictedPartsOfList domain ds)
      fun parts hparts => Resolve.Keeps.ofResult fun _ he => h.mix hparts he)
  case restricted =>
    intro d domain hd
    rw [resolve]
    · exact h.resolveRestricted d domain
    · exact hd
  case other =>
    intro name
    rw [resolve]
    exact Resolve.Keeps.cached (Resolve.Keeps.throw _)
  case nil =>
    rw [resolveParts]
    exact Resolve.Keeps.pure (by simp)
  case sum =>
    intro inner ds hinner hds
    rw [resolveParts]
    exact Resolve.Keeps.bind hinner fun first hfirst => Resolve.Keeps.bind hds fun rest hrest =>
      Resolve.Keeps.pure (List.forall_mem_append.mpr ⟨hfirst, hrest⟩)
  case restrictedPart =>
    intro d domain ds hds
    rw [resolveParts]
    exact Resolve.Keeps.bind (h.restrictedParts domain d) fun first hfirst =>
      Resolve.Keeps.bind hds fun rest hrest =>
        Resolve.Keeps.pure (List.forall_mem_append.mpr ⟨hfirst, hrest⟩)
  case part =>
    intro d ds hmixed hrestricted hd hds
    rw [resolveParts]
    · exact Resolve.Keeps.bind hd fun first hfirst => Resolve.Keeps.bind hds fun rest hrest =>
        Resolve.Keeps.pure (List.forall_mem_cons.mpr ⟨hfirst, hrest⟩)
    · exact hmixed
    · exact hrestricted

/-- All that a resolution stores or returns has every closed property. -/
theorem resolve (h : Closed P) (d : Descriptor) : Resolve.Keeps P P (resolve d) :=
  h.resolve_and_parts.1 d

theorem extract (h : Closed P) (d : Descriptor) (domain : Option Domain) :
    Resolve.Keeps P (∀ e ∈ ·, P e) (extract d domain) := by
  cases domain with
  | none => exact h.resolve_and_parts.2 [d]
  | some domain => exact h.restrictedParts domain d

end Closed

theorem closed_true : Closed fun _ : Element α => True := by
  constructor <;> intros <;> trivial

theorem resolve_grows (d : Descriptor) : Resolve.Grows (resolve d : Resolve α (Element α)) :=
  fun h => ((closed_true.resolve d).of_returns (fun _ _ => trivial) h).1

/-- The cache has a resolved element under the full family name. -/
theorem find?_of_resolve {d : Descriptor} {c c' : Cache α} {e : Element α}
    (h : Resolve.Returns (resolve d) c e c') : c'.find? d.canonicalRoot = some e := by
  cases d with
  | restricted d domain =>
    cases d <;> exact Resolve.returns_cached_find h
  | _ => exact Resolve.returns_cached_find h

end Element

/-- The caches that resolutions and extractions leave, failed ones too, when they start from an empty
one. -/
inductive Cache.Reachable {α : Type} [Scalar α] : Cache α → Prop
  | empty : Reachable Cache.empty
  | resolve {c : Cache α} (d : Descriptor) (h : Reachable c) :
    Reachable (Resolve.outcome (Element.resolve d) c).2
  | extract {c : Cache α} (d : Descriptor) (domain : Option Domain) (h : Reachable c) :
    Reachable (Resolve.outcome (Element.extract d domain) c).2

/-- Every closed property holds of all that a reachable cache has. -/
theorem Cache.Reachable.all {α : Type} [Scalar α] {P : Element α → Prop} (hP : Element.Closed P)
    {c : Cache α} (h : c.Reachable) : c.All P := by
  induction h with
  | empty => exact all_empty P
  | resolve d _ ih => exact (hP.resolve d _ ih).2.1
  | extract d domain _ ih => exact (hP.extract d domain _ ih).2.1

end Variational
