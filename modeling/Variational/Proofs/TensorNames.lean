import Variational.Proofs.ClassNames
import Variational.Proofs.GeometrySymbols

/-! Names in the code of integrals: those that statements use, and those that they declare. The names of the map
of a cell, of constants, of tables and of geometry tensors begin with different letters, and the number of a term
and a secondary index are read back from the names that are made of them. -/
namespace Variational

theorem MultiIndex.nodup_tuples (ds : List ℕ) : (tuples ds).Nodup := by
  induction ds with
  | nil => exact List.nodup_singleton _
  | cons d ds ih =>
    rw [tuples, List.nodup_flatMap]
    refine ⟨fun i _ => ih.map fun a b h => (List.cons.inj h).2, ?_⟩
    refine List.nodup_range.imp fun {i j} hij => ?_
    intro a hi hj
    obtain ⟨x, -, rfl⟩ := List.mem_map.mp hi
    obtain ⟨y, -, hy⟩ := List.mem_map.mp hj
    exact hij (List.cons.inj hy).1.symm

namespace Code

variable {α : Type}

/-- The number that an index is, if it is one. -/
def Expr.number : Expr α → List ℕ
  | natural n => [n]
  | _ => []

/-- The names in an expression, each with the numbers that index it. -/
def Expr.uses : Expr α → List (String × List ℕ)
  | name s => [(s, [])]
  | entry a i => (a.uses.map fun x => (x.1, x.2 ++ i.number)) ++ i.uses
  | neg e => e.uses
  | binary _ _ a b => a.uses ++ b.uses
  | parens e => e.uses
  | call _ e => e.uses
  | _ => []

def Initial.uses : Initial α → List (String × List ℕ)
  | expr e => e.uses
  | joined ts => ts.flatMap (·.factors.flatMap Expr.uses)
  | folded ts => ts.flatMap (·.factors.flatMap Expr.uses)

namespace Statement

/-- The names in a statement, but for what it declares and for the counters of its loops. -/
def uses : Statement α → List (String × List ℕ)
  | constant _ e => e.uses
  | declare _ e => e.uses
  | array _ vs => vs.flatMap Initial.uses
  | choose e _ target small large => e.uses ++ (target, []) :: small.uses ++ large.uses
  | loop counters target _ e => (target.uses ++ e.uses).filter fun x => x.1 ∉ counters.map (·.1)
  | _ => []

def declared : Statement α → List String
  | constant x _ => [x]
  | declare x _ => [x]
  | array x _ => [x]
  | table _ x _ _ => [x]
  | _ => []

end Statement

namespace Block

/-- All names that are declared in a block. -/
def declared : Block α → List String
  | plain body => body.flatMap Statement.declared
  | switch _ _ cases => cases.flatten.flatMap Statement.declared

/-- The names that a block declares for what follows it. -/
def visible : Block α → List String
  | plain body => body.flatMap Statement.declared
  | switch _ nested cases => if nested then [] else cases.flatten.flatMap Statement.declared

end Block

namespace Expr

theorem uses_foldl (op : Op) (spaced : Bool) (e : Expr α) (es : List (Expr α)) :
    (es.foldl (binary op spaced) e).uses = e.uses ++ es.flatMap uses := by
  induction es generalizing e with
  | nil => simp
  | cons e' es ih => rw [List.foldl_cons, ih, List.flatMap_cons, uses, List.append_assoc]

theorem uses_product (es : List (Expr α)) : (product es).uses = es.flatMap uses := by
  cases es with
  | nil => rfl
  | cons e es => exact uses_foldl .mul false e es

theorem uses_sum (es : List (Expr α)) : (sum es).uses = es.flatMap uses := by
  cases es with
  | nil => rfl
  | cons e es => exact uses_foldl .add true e es

end Expr
end Code

theorem head?_append_string {s : String} {k : Char} (h : s.toList.head? = some k) (t : String) :
    (s ++ t).toList.head? = some k := by
  rw [String.toList_append, List.head?_append, h]
  rfl

section Monomials
open Code

variable {α : Type}

/-- The first letter of the name of a symbol. -/
def Symbol.initial : Symbol → Char
  | jacobian .. => 'J'
  | inverseJacobian .. => 'K'
  | constant _ => 'c'
  | coefficient .. => 'w'

theorem Symbol.head?_name (s : Symbol) : s.name.toList.head? = some s.initial := by
  cases s with
  | jacobian => exact head?_append_string (head?_append_string rfl _) _
  | inverseJacobian => exact head?_append_string (head?_append_string rfl _) _
  | constant => exact head?_append_string rfl _
  | coefficient =>
    exact head?_append_string (head?_append_string (head?_append_string (head?_append_string rfl _) _) _) _

/-- A symbol is used by its name, and a dof of a coefficient as an entry of the first array. -/
theorem Symbol.uses_expr (s : Symbol) : (s.expr : Expr α).uses =
    match s with
    | coefficient n j => [("w", [n, j])]
    | s => [(s.name, [])] := by
  cases s <;> rfl

namespace Monomial

variable [Scalar α]

/-- A monomial uses its symbols and the determinant. -/
theorem mem_uses_expr {m : Monomial α} {x : String × List ℕ} (h : x ∈ m.expr.uses) :
    x = ("detJ", []) ∨ ∃ s ∈ m.symbols, x ∈ (s.expr : Expr α).uses := by
  have hproduct {number : List (Expr α)} (hnumber : number.flatMap Expr.uses = [])
      (h : x ∈ (Expr.product (number ++ m.symbols.map Symbol.expr)).uses) :
      ∃ s ∈ m.symbols, x ∈ (s.expr : Expr α).uses := by
    rw [Expr.uses_product, List.flatMap_append, hnumber, List.nil_append, List.flatMap_map] at h
    exact List.mem_flatMap.mp h
  have hnumber : (if m.coefficient == 1 && !m.symbols.isEmpty then []
      else [Expr.literal m.coefficient]).flatMap Expr.uses = [] := by
    split_ifs <;> rfl
  unfold expr at h
  dsimp only at h
  split at h
  · exact .inr (hproduct hnumber h)
  · rcases List.mem_append.mp h with h | h
    · exact .inr (hproduct hnumber h)
    · exact .inl (List.mem_singleton.mp h)
  · rcases List.mem_append.mp h with h | h
    · exact .inr (hproduct hnumber h)
    · change x ∈ (Expr.product (List.replicate m.detPower (.name "detJ" : Expr α))).uses at h
      rw [Expr.uses_product] at h
      obtain ⟨e, he, hx⟩ := List.mem_flatMap.mp h
      rw [List.eq_of_mem_replicate he] at hx
      exact .inl (List.mem_singleton.mp hx)

theorem mem_uses_sumExpr {ms : List (Monomial α)} {x : String × List ℕ} (h : x ∈ (sumExpr ms).uses) :
    x = ("detJ", []) ∨ ∃ m ∈ ms, ∃ s ∈ m.symbols, x ∈ (s.expr : Expr α).uses := by
  cases ms with
  | nil => cases h
  | cons m ms =>
    rw [sumExpr, Expr.uses_sum, List.flatMap_map] at h
    obtain ⟨n, hn, hx⟩ := List.mem_flatMap.mp h
    exact (mem_uses_expr hx).imp_right fun hs => ⟨n, hn, hs⟩
    nofun

/-- What is read of the first array are dofs of coefficients. -/
theorem coefficient_of_mem_uses {ms : List (Monomial α)} {slot : List ℕ}
    (h : ("w", slot) ∈ (sumExpr ms).uses) :
    ∃ m ∈ ms, ∃ n j, .coefficient n j ∈ m.symbols ∧ slot = [n, j] := by
  have hname {s : Symbol} (hs : s.initial ≠ 'w') : ("w", slot) ∉ [(s.name, ([] : List ℕ))] := by
    intro hmem
    have hhead := s.head?_name
    rw [← (Prod.mk.inj (List.mem_singleton.mp hmem)).1] at hhead
    exact hs (Option.some.inj hhead).symm
  rcases mem_uses_sumExpr h with heq | ⟨m, hm, s, hs, hx⟩
  · simp at heq
  rw [Symbol.uses_expr] at hx
  cases s with
  | jacobian i j => exact absurd hx (hname (by simp [Symbol.initial]))
  | inverseJacobian i j => exact absurd hx (hname (by simp [Symbol.initial]))
  | constant n => exact absurd hx (hname (by simp [Symbol.initial]))
  | coefficient n j => exact ⟨m, hm, n, j, hs, (Prod.mk.inj (List.mem_singleton.mp hx)).2⟩

end Monomial
end Monomials

section Initials

/-- All names begin with one of some characters. -/
def Begin (ks : List Char) (names : List String) : Prop :=
  ∀ x ∈ names, ∃ k ∈ ks, x.toList.head? = some k

theorem Begin.append {ks ls : List Char} {xs ys : List String} (hxs : Begin ks xs) (hys : Begin ls ys) :
    Begin (ks ++ ls) (xs ++ ys) := by
  refine List.forall_mem_append.mpr ⟨fun x hx => ?_, fun y hy => ?_⟩
  · obtain ⟨k, hk, hhead⟩ := hxs x hx
    exact ⟨k, List.mem_append_left _ hk, hhead⟩
  · obtain ⟨k, hk, hhead⟩ := hys y hy
    exact ⟨k, List.mem_append_right _ hk, hhead⟩

/-- Names that begin differently are different. -/
theorem Begin.disjoint {ks ls : List Char} {xs ys : List String} (hxs : Begin ks xs) (hys : Begin ls ys)
    (h : ∀ k ∈ ks, k ∉ ls) : List.Disjoint xs ys := by
  intro x hx hy
  obtain ⟨k, hk, hhead⟩ := hxs x hx
  obtain ⟨l, hl, hhead'⟩ := hys x hy
  obtain rfl : k = l := Option.some.inj (hhead.symm.trans hhead')
  exact h k hk hl

end Initials

namespace Geometry
open Code

variable {α : Type}

/-- The names of the entries of a matrix, row by row. -/
def matrixNames (symbol : ℕ → ℕ → Symbol) (dim : ℕ) : List String :=
  (List.range dim).flatMap fun i => (List.range dim).map fun j => (symbol i j).name

/-- The names that the map of a cell declares. -/
def cellNames (dim : ℕ) : List String :=
  matrixNames .jacobian dim ++ ["detJ"] ++ matrixNames .inverseJacobian dim

theorem mem_matrixNames {symbol : ℕ → ℕ → Symbol} {dim : ℕ} {x : String} :
    x ∈ matrixNames symbol dim ↔ ∃ i < dim, ∃ j < dim, x = (symbol i j).name := by
  simp only [matrixNames, List.mem_flatMap, List.mem_map, List.mem_range, eq_comm]

/-- The names of the map of a cell and of the scale factor differ in the dimensions that there is code for. -/
theorem nodup_cellNames {dim : ℕ} (h : dim ≤ 3) : (cellNames dim ++ ["det"]).Nodup := by
  interval_cases dim <;> decide +kernel

theorem begin_matrixNames {symbol : ℕ → ℕ → Symbol} {k : Char} (h : ∀ i j, (symbol i j).initial = k)
    (dim : ℕ) : Begin [k] (matrixNames symbol dim) := by
  intro x hx
  obtain ⟨i, -, j, -, rfl⟩ := mem_matrixNames.mp hx
  refine ⟨k, List.mem_singleton_self k, ?_⟩
  rw [Symbol.head?_name, h i j]

theorem begin_cellNames (dim : ℕ) : Begin ['J', 'd', 'K', 'd'] (cellNames dim ++ ["det"]) := by
  have hJ : Begin ['J'] (matrixNames .jacobian dim) := begin_matrixNames (by intros; rfl) dim
  have hK : Begin ['K'] (matrixNames .inverseJacobian dim) := begin_matrixNames (by intros; rfl) dim
  have hdetJ : Begin ['d'] ["detJ"] := List.forall_mem_singleton.mpr ⟨'d', List.mem_singleton_self _, rfl⟩
  have hdet : Begin ['d'] ["det"] := List.forall_mem_singleton.mpr ⟨'d', List.mem_singleton_self _, rfl⟩
  exact ((hJ.append hdetJ).append hK).append hdet

theorem declared_declareMatrix (symbol : ℕ → ℕ → Symbol) {rows : List (List (Expr α))} {dim : ℕ}
    (hrows : rows.length = dim) (hcolumns : ∀ row ∈ rows, row.length = dim) :
    (declareMatrix symbol rows).flatMap Statement.declared = matrixNames symbol dim := by
  have hrow {row : List (Expr α)} (hrow : row.length = dim) (i : ℕ) :
      (row.zipIdx.map fun (x : Expr α × ℕ) => Statement.constant (symbol i x.2).name x.1).flatMap
        Statement.declared = (List.range dim).map fun j => (symbol i j).name := by
    rw [List.flatMap_map, List.range_eq_range', ← hrow, ← List.zipIdx_map_snd 0 row, List.map_map]
    exact List.map_eq_flatMap.symm
  calc (declareMatrix symbol rows).flatMap Statement.declared
    _ = rows.zipIdx.flatMap fun x => (List.range dim).map fun j => (symbol x.2 j).name := by
      rw [declareMatrix, List.flatMap_assoc]
      refine List.flatMap_congr fun x hx => ?_
      exact hrow (hcolumns x.1 (List.fst_mem_of_mem_zipIdx hx)) x.2
    _ = matrixNames symbol dim := by
      rw [matrixNames, List.range_eq_range', ← hrows, ← List.zipIdx_map_snd 0 rows, List.flatMap_map]

theorem inversion_ok {dim : ℕ} {det : Expr α} {inverse : List (List (Expr α))}
    (h : inversion dim = .ok (det, inverse)) :
    dim ≤ 3 ∧ inverse.length = dim ∧ ∀ row ∈ inverse, row.length = dim := by
  unfold inversion at h
  split at h
  · cases h
    simp
  · cases h
    simp
  · cases h
    simp
  · cases h

/-- The map of a cell declares both matrices and the determinant; there is code up to dimension three. -/
theorem cellMap_ok {cell : Cell} {map : List (Statement α)} (h : cellMap cell = .ok map) :
    cell.dim ≤ 3 ∧ map.flatMap Statement.declared = cellNames cell.dim := by
  unfold cellMap at h
  dsimp only at h
  split at h
  · rename_i hdim
    rw [Result.pure_eq_ok] at h
    subst h
    rw [hdim]
    exact ⟨Nat.zero_le 3, rfl⟩
  · simp only [Result.bind_eq_ok, Result.pure_eq_ok] at h
    obtain ⟨vertices, hvertices, ⟨det, inverse⟩, hinverse, rfl⟩ := h
    obtain ⟨hdim, hlength, hrows⟩ := inversion_ok hinverse
    have hentries : (declareMatrix .jacobian ((List.range cell.dim).map fun i =>
        vertices.map (edge (α := α) i 0))).flatMap Statement.declared = matrixNames .jacobian cell.dim := by
      apply declared_declareMatrix
      · simp
      · simp [Result.length_of_mapM hvertices]
    refine ⟨hdim, ?_⟩
    simp only [List.flatMap_append, hentries, declared_declareMatrix .inverseJacobian hlength hrows]
    simp [Statement.declared, cellNames]

theorem facetCase_ok {cell : Cell} {vertices : List ℕ} {body : List (Statement α)}
    (h : facetCase cell vertices = .ok body) : Begin ['e', 'g'] (body.flatMap Statement.declared) := by
  have hedges (xs : List (ℕ × ℕ)) (values : ℕ × ℕ → List (Initial α)) : Begin ['e', 'g']
      ((xs.map fun x => Statement.array s!"e{x.2}" (values x)).flatMap Statement.declared) := by
    intro x hx
    simp only [List.flatMap_map, List.mem_flatMap] at hx
    obtain ⟨y, -, hx⟩ := hx
    obtain rfl := List.mem_singleton.mp hx
    exact ⟨'e', by decide, head?_append_string rfl _⟩
  unfold facetCase at h
  split at h
  · dsimp only at h
    split at h
    · rw [Result.pure_eq_ok] at h
      subst h
      rw [List.flatMap_append]
      exact List.forall_mem_append.mpr ⟨hedges _ _, List.forall_mem_nil _⟩
    · rw [Result.pure_eq_ok] at h
      subst h
      rw [List.flatMap_append]
      exact List.forall_mem_append.mpr ⟨hedges _ _, List.forall_mem_nil _⟩
    · rw [Result.pure_eq_ok] at h
      subst h
      rw [List.flatMap_append]
      refine List.forall_mem_append.mpr ⟨hedges _ _, fun x hx => ⟨'g', by decide, ?_⟩⟩
      have hx : x ∈ ["g00", "g01", "g11"] := hx
      simp only [List.mem_cons, List.not_mem_nil, or_false] at hx
      rcases hx with rfl | rfl | rfl <;> rfl
    · cases h
  · cases h

end Geometry

namespace FormClass
open Code

variable {α : Type} [Scalar α]

/-- The parameters of the function that computes an element tensor. -/
def parameters : IntegralKind → List String
  | .interior => ["A", "w", "c"]
  | .boundary => ["A", "w", "c", "facet"]

theorem result_mem_parameters (kind : IntegralKind) : "A" ∈ parameters kind := by cases kind <;> decide

theorem inputs_mem_parameters (kind : IntegralKind) : "w" ∈ parameters kind := by cases kind <;> decide

/-- Before the code of the tensors there are the names of the map of the cell and the scale factor; what else is
declared is local to the facets. -/
theorem scaling_ok {cell : Cell} {kind : IntegralKind} {front : List (Block α)}
    (h : scaling cell kind = .ok front) : cell.dim ≤ 3 ∧
      front.flatMap Block.visible = Geometry.cellNames cell.dim ++ ["det"] ∧
      ∃ inner, front.flatMap Block.declared = Geometry.cellNames cell.dim ++ ["det"] ++ inner ∧
        Begin ['e', 'g'] inner := by
  cases kind with
  | interior =>
    simp only [scaling, Result.bind_eq_ok, Result.pure_eq_ok] at h
    obtain ⟨map, hmap, rfl⟩ := h
    obtain ⟨hdim, hnames⟩ := Geometry.cellMap_ok hmap
    refine ⟨hdim, ?_, [], ?_, List.forall_mem_nil _⟩
    · simp [Block.visible, Statement.declared, hnames]
    · simp [Block.declared, Statement.declared, hnames]
  | boundary =>
    simp only [scaling, Geometry.facetMap, Result.bind_eq_ok, Result.pure_eq_ok] at h
    obtain ⟨map, hmap, facets, ⟨cases, hcases, rfl⟩, rfl⟩ := h
    obtain ⟨hdim, hnames⟩ := Geometry.cellMap_ok hmap
    refine ⟨hdim, ?_, cases.flatten.flatMap Statement.declared, ?_, ?_⟩
    · simp [Block.visible, Statement.declared, hnames]
    · simp [Block.declared, Statement.declared, hnames]
    · intro x hx
      obtain ⟨st, hst, hx⟩ := List.mem_flatMap.mp hx
      obtain ⟨body, hbody, hst⟩ := List.mem_flatten.mp hst
      obtain ⟨facet, -, hfacet⟩ := Result.exists_of_forall₂ (Result.mapM_eq_ok.mp hcases).flip hbody
      rw [Result.bind_eq_ok] at hfacet
      obtain ⟨vertices, -, hfacet⟩ := hfacet
      exact Geometry.facetCase_ok hfacet x (List.mem_flatMap.mpr ⟨st, hst, hx⟩)

end FormClass

namespace TensorCode
open Code

variable {α : Type}

theorem mem_terms_of_written {terms : List (Term α)} {x : Term α × ℕ} (h : x ∈ written terms) :
    x.1 ∈ terms := List.fst_mem_of_mem_zipIdx (List.mem_of_mem_filter h)

theorem written_increasing (terms : List (Term α)) :
    (written terms).Pairwise fun x y => x.2 < y.2 := (GeometryEntry.zipIdx_increasing terms).filter _

/-- The name of an entry of the geometry tensor of a term, or of all of them as an array. -/
def geometryName (number : ℕ) : Option (List ℕ) → String
  | some a => entryName number a
  | none => s!"G_{number}"

theorem entryName_delimited (number : ℕ) (a : List ℕ) : (entryName number a).toList ++ ['_'] =
    'G' :: (number :: a).flatMap fun n => (toString n).toList ++ ['_'] := by
  unfold entryName
  cases a with
  | nil =>
    change ("G" ++ toString number).toList ++ ['_'] = _
    simp
  | cons n a =>
    have hlabel : (MultiIndex.label "_" (n :: a)).toList ++ ['_'] =
        (n :: a).flatMap fun n => (toString n).toList ++ ['_'] :=
      Naming.delimited_label "_" (List.cons_ne_nil n a)
    rw [List.flatMap_cons, ← hlabel]
    change (("G" ++ toString number ++ "_") ++ MultiIndex.label "_" (n :: a)).toList ++ ['_'] = _
    simp

/-- In the name of an entry a digit follows the letter, in that of an array the delimiter. -/
theorem arrayName_ne_entryName (n m : ℕ) (a : List ℕ) : s!"G_{n}" ≠ entryName m a := by
  intro h
  have hchars : ("G" ++ "_" ++ toString n).toList ++ ['_'] =
      'G' :: ((toString m).toList ++ '_' :: a.flatMap fun n => (toString n).toList ++ ['_']) := by
    rw [show "G" ++ "_" ++ toString n = entryName m a from h, entryName_delimited, List.flatMap_cons,
      List.append_assoc]
    rfl
  rw [String.toList_append, String.toList_append] at hchars
  have hrest : [] ++ '_' :: ((toString n).toList ++ ['_']) = (toString m).toList ++ '_' :: _ :=
    (List.cons.inj hchars).2
  obtain ⟨hnil, -⟩ := append_delimiter_inj List.not_mem_nil (delimiter_notMem_toString rfl m) hrest
  exact Nat.repr_ne_empty (String.toList_eq_nil_iff.mp hnil.symm)

/-- The number of a term and a secondary index are read back from a name. -/
theorem geometryName_inj {n m : ℕ} {a b : Option (List ℕ)} (h : geometryName n a = geometryName m b) :
    n = m ∧ a = b := by
  match a, b, h with
  | some a, some b, h =>
    have hchars := congrArg (fun s => s.toList ++ ['_']) h
    simp only [geometryName, entryName_delimited] at hchars
    have hlists := Naming.delimited_inj rfl (List.cons.inj hchars).2
    exact ⟨(List.cons.inj hlists).1, congrArg some (List.cons.inj hlists).2⟩
  | some a, none, h => exact absurd h.symm (arrayName_ne_entryName m n a)
  | none, some b, h => exact absurd h (arrayName_ne_entryName n m b)
  | none, none, h =>
    have hnumber : "G_" ++ toString n = "G_" ++ toString m := h
    exact ⟨Nat.repr_inj.mp (String.append_right_inj _ |>.mp hnumber), rfl⟩

/-- What the names of the geometry tensors are for: the entries that are written, and then the array, of each
term in turn. -/
def geometryKeys (terms : List (Term α)) : List (ℕ × Option (List ℕ)) :=
  (written terms).flatMap fun (t, n) =>
    (t.geometry.map fun g => (n, some (t.reference.secondary.indices.getD g.position []))) ++ [(n, none)]

def geometryNames (terms : List (Term α)) : List String :=
  (geometryKeys terms).map fun x => geometryName x.1 x.2

def constantNames (f : Form α) : List String :=
  (List.range f.numConstants).map fun n => (Symbol.constant n).name

def tableNames (terms : List (Term α)) : List String := (written terms).map fun x => s!"A0_{x.2}"

section Distinct

variable {dim numCoefficients numConstants : ℕ}

theorem nodup_entries {t : Term α} (h : t.Supplied dim numCoefficients numConstants) :
    (t.geometry.map fun g => t.reference.secondary.indices.getD g.position []).Nodup := by
  rw [List.Nodup, List.pairwise_map]
  refine h.positions.imp_of_mem fun {g g'} hg hg' hlt heq => ?_
  obtain ⟨a, ha, -⟩ := h.symbols g hg
  obtain ⟨b, hb, -⟩ := h.symbols g' hg'
  rw [List.getD_eq_getElem?_getD, List.getD_eq_getElem?_getD, ha, hb] at heq
  have hsame : t.reference.secondary.indices[g.position]? = t.reference.secondary.indices[g'.position]? := by
    rw [ha, hb]
    exact congrArg some heq
  have hposition := (List.getElem?_inj (List.getElem?_eq_some_iff.mp ha).1 (MultiIndex.nodup_tuples _)).mp hsame
  omega

theorem nodup_geometryNames {terms : List (Term α)}
    (h : ∀ t ∈ terms, t.Supplied dim numCoefficients numConstants) : (geometryNames terms).Nodup := by
  have hkeys : (geometryKeys terms).Nodup := by
    rw [geometryKeys, List.nodup_flatMap]
    refine ⟨fun x hx => ?_, (written_increasing terms).imp fun {x y} hlt => ?_⟩
    · have hentries := nodup_entries (h x.1 (mem_terms_of_written hx))
      refine List.Nodup.append ?_ (List.nodup_singleton _) (by simp)
      have hnodup := hentries.map (f := fun a => (x.2, some a)) fun a b hab => by simpa using hab
      rwa [List.map_map] at hnodup
    · have hfirst {z : Term α × ℕ} {key : ℕ × Option (List ℕ)} (hkey : key ∈ (z.1.geometry.map fun g =>
          (z.2, some (z.1.reference.secondary.indices.getD g.position []))) ++ [(z.2, none)]) :
          key.1 = z.2 := by
        rcases List.mem_append.mp hkey with hkey | hkey
        · obtain ⟨g, -, rfl⟩ := List.mem_map.mp hkey
          rfl
        · rw [List.mem_singleton.mp hkey]
      intro key hx hy
      exact hlt.ne ((hfirst hx).symm.trans (hfirst hy))
  refine hkeys.map fun x y hxy => ?_
  obtain ⟨hnumber, hindex⟩ := geometryName_inj hxy
  exact Prod.ext hnumber hindex

theorem nodup_tableNames (terms : List (Term α)) : (tableNames terms).Nodup := by
  rw [tableNames, List.Nodup, List.pairwise_map]
  refine (written_increasing terms).imp fun {x y} hlt heq => hlt.ne ?_
  have hnumber : "A0_" ++ toString x.2 = "A0_" ++ toString y.2 := heq
  exact Nat.repr_inj.mp (String.append_right_inj _ |>.mp hnumber)

theorem nodup_constantNames (f : Form α) : (constantNames f).Nodup := by
  refine List.nodup_range.map fun n m heq => ?_
  have hnumber : "c" ++ toString n = "c" ++ toString m := heq
  exact Nat.repr_inj.mp (String.append_right_inj _ |>.mp hnumber)

theorem begin_constantNames (f : Form α) : Begin ['c'] (constantNames f) := by
  exact List.forall_mem_map.mpr fun n _ => ⟨'c', List.mem_singleton_self _, Symbol.head?_name _⟩

theorem begin_tableNames (terms : List (Term α)) : Begin ['A'] (tableNames terms) := by
  refine List.forall_mem_map.mpr fun x _ => ⟨'A', List.mem_singleton_self _, ?_⟩
  exact head?_append_string rfl _

theorem begin_geometryNames (terms : List (Term α)) : Begin ['G'] (geometryNames terms) := by
  refine List.forall_mem_map.mpr fun x _ => ⟨'G', List.mem_singleton_self _, ?_⟩
  cases hx : x.2 with
  | none => exact head?_append_string rfl _
  | some a =>
    unfold geometryName entryName
    dsimp only
    split_ifs
    · exact head?_append_string rfl _
    · exact head?_append_string (head?_append_string (head?_append_string rfl _) _) _

/-- All names of the map of the cell, the scale factor and the code of the tensors are different. -/
theorem nodup_names {f : Form α} {kind : IntegralKind} (hdim : dim ≤ 3)
    (h : ∀ t ∈ f.terms kind, t.Supplied dim numCoefficients numConstants) :
    (Geometry.cellNames dim ++ ["det"] ++
      (constantNames f ++ tableNames (f.terms kind) ++ geometryNames (f.terms kind))).Nodup := by
  have hc := begin_constantNames f
  have hA := begin_tableNames (f.terms kind)
  have hG := begin_geometryNames (f.terms kind)
  refine (Geometry.nodup_cellNames hdim).append (List.Nodup.append ?_ (nodup_geometryNames h) ?_) ?_
  · exact (nodup_constantNames f).append (nodup_tableNames _) (hc.disjoint hA (by simp))
  · exact (hc.append hA).disjoint hG (by simp)
  · exact (Geometry.begin_cellNames dim).disjoint ((hc.append hA).append hG) (by simp)

theorem begin_names (f : Form α) (dim : ℕ) (kind : IntegralKind) : Begin ['J', 'd', 'K', 'd', 'c', 'A', 'G']
    (Geometry.cellNames dim ++ ["det"] ++
      (constantNames f ++ tableNames (f.terms kind) ++ geometryNames (f.terms kind))) :=
  (Geometry.begin_cellNames dim).append
    (((begin_constantNames f).append (begin_tableNames _)).append (begin_geometryNames _))

end Distinct

section Declared

theorem declared_constants (f : Form α) :
    (constants f).flatMap Statement.declared = constantNames f := by
  unfold constants constantNames
  split_ifs with hzero
  · rw [hzero]
    rfl
  · simp [Statement.declared, List.flatMap_map, ← List.map_eq_flatMap]

variable [Scalar α]

theorem declared_table (t : Term α) (n : ℕ) : (table t n).declared = [s!"A0_{n}"] := by
  unfold table
  dsimp only
  split <;> rfl

theorem declared_tables (terms : List (Term α)) :
    (tables terms).flatMap Statement.declared = tableNames terms := by
  rw [tables, List.flatMap_cons, List.flatMap_assoc, tableNames, List.map_eq_flatMap]
  refine List.flatMap_congr fun x _ => ?_
  rw [List.flatMap_cons, declared_table]
  rfl

theorem declared_geometry (terms : List (Term α)) :
    (geometry terms).flatMap Statement.declared = geometryNames terms := by
  rw [geometry, List.flatMap_append, List.flatMap_cons, List.flatMap_assoc, geometryNames, geometryKeys,
    List.map_flatMap]
  change [] ++ _ ++ [] = _
  rw [List.nil_append, List.append_nil]
  refine List.flatMap_congr fun x _ => ?_
  rw [List.flatMap_append, List.map_append]
  refine congrArg₂ _ ?_ rfl
  rw [List.flatMap_map, namedEntries, List.flatMap_map, List.map_map]
  exact List.map_eq_flatMap.symm

omit [Scalar α] in
theorem declared_contraction (f : Form α) (kind : IntegralKind) :
    (contraction f kind).flatMap Statement.declared = [] := by
  rw [contraction, List.flatMap_append, List.flatMap_map]
  exact List.flatMap_eq_nil_iff.mpr fun x _ => rfl

theorem declared_body (f : Form α) (kind : IntegralKind) : (body f kind).flatMap Statement.declared =
    constantNames f ++ tableNames (f.terms kind) ++ geometryNames (f.terms kind) := by
  rw [body, List.flatMap_append, List.flatMap_append, List.flatMap_append, declared_constants, declared_tables,
    declared_geometry, declared_contraction, List.append_nil]

end Declared

end TensorCode
end Variational
