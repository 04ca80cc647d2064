import Variational.Element.Compose
import Variational.Element.Family
import Variational.Element.Time

/-! From descriptors to elements. Every element that is resolved on the way is kept in a cache, also
when the resolution as a whole fails; an entry is never replaced. -/
namespace Variational

/-- Resolved elements by descriptor, in the order in which they were stored. -/
structure Cache (α : Type) where
  entries : List (Descriptor × Element α)

namespace Cache

variable {α : Type}

def empty : Cache α := ⟨[]⟩

def size (c : Cache α) : Nat := c.entries.length

def find? (c : Cache α) (d : Descriptor) : Option (Element α) :=
  (c.entries.find? fun entry => entry.1 = d).map (·.2)

/-- The place of the entry for a descriptor; it never changes. -/
def slot? (c : Cache α) (d : Descriptor) : Option Nat :=
  c.entries.findIdx? fun entry => entry.1 = d

/-- Store an element unless the descriptor has one. -/
def insert (c : Cache α) (d : Descriptor) (e : Element α) : Cache α :=
  match c.find? d with
  | some _ => c
  | none => ⟨c.entries ++ [(d, e)]⟩

/-- After an insertion the descriptor has its old element, or the new one if it had none. -/
theorem find?_insert (c : Cache α) (d : Descriptor) (e : Element α) :
    (c.insert d e).find? d = some ((c.find? d).getD e) := by
  unfold insert
  cases h : c.find? d with
  | some e' => simpa using h
  | none =>
    unfold find? at h ⊢
    rw [Option.map_eq_none_iff] at h
    rw [List.find?_append, h]
    simp

@[simp] theorem find?_empty (d : Descriptor) : (empty : Cache α).find? d = none := rfl

end Cache

/-- Computations that use a cache. What they stored is kept when they fail. -/
abbrev Resolve (α : Type) := ExceptT Error (StateM (Cache α))

namespace Resolve

variable {α : Type} [Scalar α]

def ofResult {β : Type} : Result β → Resolve α β
  | .ok b => pure b
  | .error e => throw e

/-- The cached element for a descriptor, or else the one that is computed, which is then stored. The
answer is the element that the cache has afterwards. -/
@[specialize] def cached (d : Descriptor) (compute : Resolve α (Element α)) :
    Resolve α (Element α) := do
  match (← get).find? d with
  | some e => return e
  | none =>
    let e ← compute
    modifyGet fun c => ((c.find? d).getD e, c.insert d e)

end Resolve

namespace Element

variable {α : Type} [Scalar α]

/-- The element of a family on a cell; nothing is cached and the family name is taken as it is. Time
elements live on the interval, whatever cell is named. -/
@[specialize] def ofFamily (family : String) (cell : Cell) (degree : Option Nat) :
    Result (Element α) :=
  let n := degree.getD 0
  let onFactor (family : String) (n : Nat) : Result (PolynomialElement α) := match cell with
    | .simple c => PolynomialElement.ofFamily family c n
    | .product _ _ => .error (.unsupportedCell (.needsFactors family cell))
  if family ∉ supportedFamilies then .error (.unsupportedFamily family)
  else match family with
    | "Real" => return reals (← onFactor "Discontinuous Lagrange" 0)
    | "Lobatto" => return time (← TimeFamily.lobatto.create n)
    | "Radau" => return time (← TimeFamily.radau.create n)
    | "Quadrature" => atQuadraturePoints cell n
    | _ => return polynomial (← onFactor family n)

/-- The restriction of an element of a family. -/
def restrictFamily (family : String) (cell : Cell) (degree : Option Nat) (domain : Domain) :
    Result (Element α) := do
  let e ← ofFamily family cell degree
  return restricted e (← selectIndices e.layout domain) domain

/-- The restriction of an element that is no sum: only elements of families have one. -/
def resolveRestricted (d : Descriptor) (domain : Domain) : Resolve α (Element α) :=
  Resolve.cached (.restricted d domain) <| match d with
    | .simple family cell degree => Resolve.ofResult (restrictFamily family cell degree domain)
    | d => throw (.unsupportedRestriction d.name)

mutual

/-- The parts of a sum restricted to a domain. A restriction inside the sum takes the place of the
outer one. -/
def restrictedParts (domain : Domain) : Descriptor → Resolve α (List (Element α))
  | .mixed ds => restrictedPartsOfList domain ds
  | .restricted d inner => restrictedParts inner d
  | d => return [← resolveRestricted d domain]

def restrictedPartsOfList (domain : Domain) : List Descriptor → Resolve α (List (Element α))
  | [] => return []
  | d :: ds => do
    let first ← restrictedParts domain d
    return first ++ (← restrictedPartsOfList domain ds)

end

mutual

/-- The element that a descriptor describes. A family at the root may have its short name. -/
def resolve : Descriptor → Resolve α (Element α)
  | .simple family cell degree =>
    let d := Descriptor.simple (canonicalFamily family) cell degree
    Resolve.cached d (Resolve.ofResult (ofFamily (canonicalFamily family) cell degree))
  | .enriched a b => Resolve.cached (.enriched a b) do
    let x ← resolve a
    let y ← resolve b
    Resolve.ofResult (enrich x y)
  | .product a b => Resolve.cached (.product a b) do
    let x ← resolve a
    let y ← resolve b
    Resolve.ofResult (tensor x y)
  | .wrapped space d => Resolve.cached (.wrapped space d) do
    if d.family ∉ supportedFamilies then throw (.unsupportedFamily d.family)
    let x ← resolve d
    Resolve.ofResult (wrap space x)
  | .mixed ds => Resolve.cached (.mixed ds) do
    let parts ← resolveParts ds
    Resolve.ofResult (mix parts)
  | .restricted (.mixed ds) domain => Resolve.cached (.restricted (.mixed ds) domain) do
    let parts ← restrictedPartsOfList domain ds
    Resolve.ofResult (mix parts)
  | .restricted d domain => resolveRestricted d domain
  | .other name => Resolve.cached (.other name) (throw (.unsupportedElementType name))

/-- The parts of a sum, with the parts of the sums inside it in their places. -/
def resolveParts : List Descriptor → Resolve α (List (Element α))
  | [] => return []
  | .mixed inner :: ds => do
    let first ← resolveParts inner
    return first ++ (← resolveParts ds)
  | .restricted d domain :: ds => do
    let first ← restrictedParts domain d
    return first ++ (← resolveParts ds)
  | d :: ds => do
    let first ← resolve d
    return first :: (← resolveParts ds)

end

/-- The flat list of parts of a descriptor, restricted to a domain if one is given. -/
def extract (d : Descriptor) : Option Domain → Resolve α (List (Element α))
  | none => resolveParts [d]
  | some domain => restrictedParts domain d

/-- Resolution with an empty cache. -/
def ofDescriptor (d : Descriptor) : Result (Element α) := ((resolve d).run.run .empty).1

end Element
end Variational
