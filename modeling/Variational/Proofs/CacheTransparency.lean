import Variational.Proofs.Resolution

/-! The cache changes no answer. Resolution is written once more without a cache. A run on a cache that
holds answers of the cacheless resolution gives the cacheless answer and leaves such a cache, so in a
sequence of resolutions on one cache each is answered as if it were the only one. -/
namespace Variational

theorem canonicalFamily_of_supported :
    ∀ family ∈ supportedFamilies, canonicalFamily family = family := by decide

/-- A full name stands for itself. -/
theorem canonicalFamily_idem (family : String) :
    canonicalFamily (canonicalFamily family) = canonicalFamily family := by
  have hcases : canonicalFamily family ∈ supportedFamilies ∨ canonicalFamily family = family := by
    unfold canonicalFamily
    split <;> first | exact .inr rfl | exact .inl (by decide)
  rcases hcases with h | h
  · exact canonicalFamily_of_supported _ h
  · rw [h, h]

namespace Descriptor

mutual

/-- The parts of a sum, each with the innermost restriction around it. -/
def restrictedLeaves (domain : Domain) : Descriptor → List (Descriptor × Domain)
  | mixed ds => restrictedLeavesOfList domain ds
  | restricted d inner => restrictedLeaves inner d
  | d => [(d, domain)]

def restrictedLeavesOfList (domain : Domain) : List Descriptor → List (Descriptor × Domain)
  | [] => []
  | d :: ds => restrictedLeaves domain d ++ restrictedLeavesOfList domain ds

end

end Descriptor

namespace Element

variable {α : Type} [Scalar α]

/-- The restriction of an element that is no sum. -/
def restrictLeaf (leaf : Descriptor × Domain) : Result (Element α) :=
  match leaf.1 with
  | .simple family cell degree => restrictFamily family cell degree leaf.2
  | d => .error (.unsupportedRestriction d.name)

mutual

/-- Resolution without a cache. -/
def direct : Descriptor → Result (Element α)
  | .simple family cell degree => ofFamily (canonicalFamily family) cell degree
  | .enriched a b => do
    let x ← direct a
    let y ← direct b
    enrich x y
  | .product a b => do
    let x ← direct a
    let y ← direct b
    tensor x y
  | .wrapped space d =>
    if d.family ∈ supportedFamilies then direct d >>= wrap space
    else .error (.unsupportedFamily d.family)
  | .mixed ds => directParts ds >>= mix
  | .restricted (.mixed ds) domain =>
    (Descriptor.restrictedLeavesOfList domain ds).mapM restrictLeaf >>= mix
  | .restricted d domain => restrictLeaf (d, domain)
  | .other name => .error (.unsupportedElementType name)

def directParts : List Descriptor → Result (List (Element α))
  | [] => .ok []
  | .mixed inner :: ds => do
    let first ← directParts inner
    return first ++ (← directParts ds)
  | .restricted d domain :: ds => do
    let first ← (d.restrictedLeaves domain).mapM restrictLeaf
    return first ++ (← directParts ds)
  | d :: ds => do
    let first ← direct d
    return first :: (← directParts ds)

end

end Element

namespace Cache

variable {α : Type}

theorem mem_of_find? {c : Cache α} {d : Descriptor} {e : Element α} (h : c.find? d = some e) :
    (d, e) ∈ c.entries := by
  obtain ⟨⟨key, value⟩, hentry, rfl⟩ := Option.map_eq_some_iff.mp h
  obtain rfl : key = d := by simpa using List.find?_some hentry
  exact List.mem_of_find?_eq_some hentry

theorem notMem_keys_of_find? {c : Cache α} {d : Descriptor} (h : c.find? d = none) :
    d ∉ c.entries.map (·.1) := by
  rw [find?, Option.map_eq_none_iff, List.find?_eq_none] at h
  intro hd
  obtain ⟨entry, hentry, rfl⟩ := List.mem_map.mp hd
  exact h entry hentry (by simp)

variable [Scalar α]

/-- What resolutions leave in a cache: each entry is the element of its descriptor, a family at the root
of a descriptor has its full name, and no descriptor has two entries. -/
structure Faithful (c : Cache α) : Prop where
  direct : ∀ entry ∈ c.entries, Element.direct entry.1 = .ok entry.2
  canonical : ∀ entry ∈ c.entries, entry.1.canonicalRoot = entry.1
  distinct : (c.entries.map (·.1)).Nodup

theorem faithful_empty : (empty : Cache α).Faithful := by
  constructor <;> simp [empty]

theorem Faithful.insert {c : Cache α} (h : c.Faithful) {d : Descriptor} {e : Element α}
    (hd : d.canonicalRoot = d) (he : Element.direct d = .ok e) : (c.insert d e).Faithful := by
  unfold Cache.insert
  split
  · exact h
  · rename_i hnone
    refine ⟨?_, ?_, ?_⟩
    · exact List.forall_mem_append.mpr ⟨h.direct, List.forall_mem_singleton.mpr he⟩
    · exact List.forall_mem_append.mpr ⟨h.canonical, List.forall_mem_singleton.mpr hd⟩
    · rw [List.map_append, List.map_singleton, List.nodup_append]
      refine ⟨h.distinct, List.nodup_singleton _, ?_⟩
      rintro key hkey _ hkey' rfl
      obtain rfl := List.mem_singleton.mp hkey'
      exact notMem_keys_of_find? hnone hkey

end Cache

namespace Resolve

variable {α β γ : Type} [Scalar α]

/-- On every faithful cache the computation has one answer, and it only adds entries that keep the cache
faithful. -/
def Answers (x : Resolve α β) (r : Result β) : Prop :=
  ∀ c : Cache α, c.Faithful → (outcome x c).1 = r ∧ c.Extends (outcome x c).2 ∧
    (outcome x c).2.Faithful

namespace Answers

theorem pure (b : β) : Answers (pure b : Resolve α β) (.ok b) :=
  fun c hc => ⟨rfl, Cache.Extends.refl c, hc⟩

theorem throw (e : Error) : Answers (throw e : Resolve α β) (.error e) :=
  fun c hc => ⟨rfl, Cache.Extends.refl c, hc⟩

theorem ofResult (r : Result β) : Answers (ofResult r : Resolve α β) r := by
  cases r with
  | ok b => exact pure b
  | error e => exact throw e

theorem bind {x : Resolve α β} {r : Result β} {f : β → Resolve α γ} {g : β → Result γ}
    (hx : Answers x r) (hf : ∀ b, Answers (f b) (g b)) : Answers (x >>= f) (r >>= g) := by
  intro c hc
  obtain ⟨hanswer, hext, hc₁⟩ := hx c hc
  rw [outcome_bind]
  rcases hrun : outcome x c with ⟨e | b, c₁⟩
  · rw [hrun] at hanswer hext hc₁
    subst hanswer
    exact ⟨rfl, hext, hc₁⟩
  · rw [hrun] at hanswer hext hc₁
    subst hanswer
    obtain ⟨hanswer', hext', hc₂⟩ := hf b c₁ hc₁
    exact ⟨hanswer', hext.trans hext', hc₂⟩

/-- An entry that is found, or was stored while the element was computed, is the element that is
computed. -/
theorem cached {d : Descriptor} {x : Resolve α (Element α)} (hd : d.canonicalRoot = d)
    (hx : Answers x (Element.direct d)) : Answers (cached d x) (Element.direct d) := by
  intro c hc
  rw [outcome_cached]
  cases hfind : c.find? d with
  | some e =>
    exact ⟨(hc.direct _ (Cache.mem_of_find? hfind)).symm, Cache.Extends.refl c, hc⟩
  | none =>
    obtain ⟨hanswer, hext, hc₁⟩ := hx c hc
    rcases hrun : outcome x c with ⟨err | e, c₁⟩
    · rw [hrun] at hanswer hext hc₁
      exact ⟨hanswer, hext, hc₁⟩
    · rw [hrun] at hanswer hext hc₁
      have he : Element.direct d = .ok e := hanswer.symm
      refine ⟨?_, hext.trans (Cache.extends_insert c₁ d e), hc₁.insert hd he⟩
      change Except.ok ((c₁.find? d).getD e) = Element.direct d
      cases hstored : c₁.find? d with
      | none => exact hanswer
      | some e' => exact (hc₁.direct _ (Cache.mem_of_find? hstored)).symm

end Answers
end Resolve

namespace Element

variable {α : Type} [Scalar α]

theorem answers_resolveRestricted {d : Descriptor} (hd : ∀ ds, d ≠ .mixed ds) (domain : Domain) :
    Resolve.Answers (resolveRestricted d domain : Resolve α (Element α))
      (restrictLeaf (d, domain)) := by
  have hdirect : (direct (.restricted d domain) : Result (Element α)) = restrictLeaf (d, domain) := by
    rw [direct]
    exact fun ds hds => hd ds hds
  rw [← hdirect]
  apply Resolve.Answers.cached rfl
  rw [hdirect]
  cases d with
  | simple family cell degree => exact Resolve.Answers.ofResult _
  | mixed ds => exact absurd rfl (hd ds)
  | _ => exact Resolve.Answers.throw _

/-- A part that is no sum is restricted by itself. -/
theorem answers_singleton {d : Descriptor} (hd : ∀ ds, d ≠ .mixed ds) (domain : Domain) :
    Resolve.Answers (do return [← resolveRestricted d domain] : Resolve α (List (Element α)))
      ([(d, domain)].mapM restrictLeaf) := by
  rw [List.mapM_cons]
  exact Resolve.Answers.bind (answers_resolveRestricted hd domain) fun e =>
    Resolve.Answers.pure [e]

mutual

theorem answers_restrictedParts : ∀ (domain : Domain) (d : Descriptor),
    Resolve.Answers (restrictedParts domain d : Resolve α (List (Element α)))
      ((d.restrictedLeaves domain).mapM restrictLeaf)
  | domain, .mixed ds => by
    rw [restrictedParts, Descriptor.restrictedLeaves]
    exact answers_restrictedPartsOfList domain ds
  | _, .restricted d inner => by
    rw [restrictedParts, Descriptor.restrictedLeaves]
    exact answers_restrictedParts inner d
  | domain, .simple _ _ _ => answers_singleton (by simp) domain
  | domain, .enriched _ _ => answers_singleton (by simp) domain
  | domain, .product _ _ => answers_singleton (by simp) domain
  | domain, .wrapped _ _ => answers_singleton (by simp) domain
  | domain, .other _ => answers_singleton (by simp) domain

theorem answers_restrictedPartsOfList : ∀ (domain : Domain) (ds : List Descriptor),
    Resolve.Answers (restrictedPartsOfList domain ds : Resolve α (List (Element α)))
      ((Descriptor.restrictedLeavesOfList domain ds).mapM restrictLeaf)
  | _, [] => Resolve.Answers.pure []
  | domain, d :: ds => by
    rw [restrictedPartsOfList, Descriptor.restrictedLeavesOfList, List.mapM_append]
    exact Resolve.Answers.bind (answers_restrictedParts domain d) fun first =>
      Resolve.Answers.bind (answers_restrictedPartsOfList domain ds) fun rest =>
        Resolve.Answers.pure (first ++ rest)

end

theorem answers_resolve_and_parts :
    (∀ d, Resolve.Answers (resolve d : Resolve α (Element α)) (direct d)) ∧
      ∀ ds, Resolve.Answers (resolveParts ds : Resolve α (List (Element α))) (directParts ds) := by
  apply resolution_induction
  case simple =>
    intro family cell degree
    have hdirect : (direct (.simple (canonicalFamily family) cell degree) : Result (Element α)) =
        direct (.simple family cell degree) := by
      rw [direct, direct, canonicalFamily_idem]
    rw [resolve, ← hdirect]
    apply Resolve.Answers.cached
    · rw [Descriptor.canonicalRoot, canonicalFamily_idem]
    · rw [hdirect, direct]
      exact Resolve.Answers.ofResult _
  case enriched =>
    intro a b ha hb
    rw [resolve]
    apply Resolve.Answers.cached rfl
    rw [direct]
    exact Resolve.Answers.bind ha fun x => Resolve.Answers.bind hb fun y =>
      Resolve.Answers.ofResult (enrich x y)
  case product =>
    intro a b ha hb
    rw [resolve]
    apply Resolve.Answers.cached rfl
    rw [direct]
    exact Resolve.Answers.bind ha fun x => Resolve.Answers.bind hb fun y =>
      Resolve.Answers.ofResult (tensor x y)
  case wrapped =>
    intro space d hd
    rw [resolve]
    apply Resolve.Answers.cached rfl
    rw [direct]
    by_cases hfamily : d.family ∈ supportedFamilies
    · rw [if_pos hfamily, if_neg (not_not.mpr hfamily)]
      exact Resolve.Answers.bind hd fun x => Resolve.Answers.ofResult (wrap space x)
    · rw [if_neg hfamily, if_pos hfamily]
      exact Resolve.Answers.throw _
  case mixed =>
    intro ds hds
    rw [resolve]
    apply Resolve.Answers.cached rfl
    rw [direct]
    exact Resolve.Answers.bind hds fun parts => Resolve.Answers.ofResult (mix parts)
  case restrictedSum =>
    intro ds domain
    rw [resolve]
    apply Resolve.Answers.cached rfl
    rw [direct]
    exact Resolve.Answers.bind (answers_restrictedPartsOfList domain ds) fun parts =>
      Resolve.Answers.ofResult (mix parts)
  case restricted =>
    intro d domain hd
    rw [resolve, direct]
    · exact answers_resolveRestricted hd domain
    · exact hd
    · exact hd
  case other =>
    intro name
    rw [resolve]
    apply Resolve.Answers.cached rfl
    rw [direct]
    exact Resolve.Answers.throw _
  case nil =>
    rw [resolveParts, directParts]
    exact Resolve.Answers.pure []
  case sum =>
    intro inner ds hinner hds
    rw [resolveParts, directParts]
    exact Resolve.Answers.bind hinner fun first => Resolve.Answers.bind hds fun rest =>
      Resolve.Answers.pure (first ++ rest)
  case restrictedPart =>
    intro d domain ds hds
    rw [resolveParts, directParts]
    exact Resolve.Answers.bind (answers_restrictedParts domain d) fun first =>
      Resolve.Answers.bind hds fun rest => Resolve.Answers.pure (first ++ rest)
  case part =>
    intro d ds hmixed hrestricted hd hds
    rw [resolveParts, directParts]
    · exact Resolve.Answers.bind hd fun first => Resolve.Answers.bind hds fun rest =>
        Resolve.Answers.pure (first :: rest)
    all_goals assumption

theorem answers_resolve (d : Descriptor) :
    Resolve.Answers (resolve d : Resolve α (Element α)) (direct d) := answers_resolve_and_parts.1 d

theorem ofDescriptor_eq_direct (d : Descriptor) : (ofDescriptor d : Result (Element α)) = direct d :=
  (answers_resolve d .empty Cache.faithful_empty).1

end Element

namespace Resolve

variable {α : Type} [Scalar α]

/-- Resolutions one after the other on one cache: the answers, and the cache that is left. -/
def session : List Descriptor → Cache α → List (Result (Element α)) × Cache α
  | [], c => ([], c)
  | d :: ds, c =>
    let first := outcome (Element.resolve d) c
    let rest := session ds first.2
    (first.1 :: rest.1, rest.2)

theorem session_append (ds more : List Descriptor) (c : Cache α) :
    (session (ds ++ more) c).2 = (session more (session ds c).2).2 := by
  induction ds generalizing c with
  | nil => rfl
  | cons d ds ih => exact ih _

theorem session_answers (ds : List Descriptor) {c : Cache α} (hc : c.Faithful) :
    (session ds c).1 = ds.map Element.direct ∧ c.Extends (session ds c).2 ∧
      (session ds c).2.Faithful := by
  induction ds generalizing c with
  | nil => exact ⟨rfl, Cache.Extends.refl c, hc⟩
  | cons d ds ih =>
    obtain ⟨hanswer, hext, hc₁⟩ := Element.answers_resolve d c hc
    obtain ⟨hanswers, hext', hc₂⟩ := ih hc₁
    exact ⟨congrArg₂ List.cons hanswer hanswers, hext.trans hext', hc₂⟩

/-- The answer for a descriptor on the cache that earlier resolutions have left. -/
def answerAfter (earlier : List Descriptor) (d : Descriptor) : Result (Element α) :=
  (outcome (Element.resolve d) (session earlier .empty).2).1

theorem answerAfter_eq (earlier : List Descriptor) (d : Descriptor) :
    (answerAfter earlier d : Result (Element α)) = Element.direct d :=
  (Element.answers_resolve d _ (session_answers earlier Cache.faithful_empty).2.2).1

/-- Each resolution of a sequence on one cache is answered as on an empty cache. All entries are such
answers, none under the short name of a family, no descriptor has two, and all of them stay. -/
theorem session_transparent (ds : List Descriptor) :
    (session ds (Cache.empty : Cache α)).1 = ds.map Element.ofDescriptor ∧
      (∀ entry ∈ (session ds (Cache.empty : Cache α)).2.entries,
        Element.ofDescriptor entry.1 = .ok entry.2 ∧
        ∀ family cell degree, entry.1 = .simple family cell degree → canonicalFamily family = family) ∧
      ((session ds (Cache.empty : Cache α)).2.entries.map (·.1)).Nodup ∧
      ∀ more, (session ds (Cache.empty : Cache α)).2.Extends (session (ds ++ more) .empty).2 := by
  obtain ⟨hanswers, -, hfaithful⟩ := session_answers ds (Cache.faithful_empty (α := α))
  refine ⟨?_, ?_, hfaithful.distinct, fun more => ?_⟩
  · rw [hanswers]
    exact List.map_congr_left fun d _ => (Element.ofDescriptor_eq_direct d).symm
  · intro entry hentry
    refine ⟨(Element.ofDescriptor_eq_direct _).trans (hfaithful.direct entry hentry), ?_⟩
    intro family cell degree hkey
    have hroot := hfaithful.canonical entry hentry
    rw [hkey] at hroot
    exact (Descriptor.simple.inj hroot).1
  · rw [session_append]
    exact (session_answers more hfaithful).2.1

end Resolve
end Variational
