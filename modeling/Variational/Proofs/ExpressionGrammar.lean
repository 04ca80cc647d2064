import Mathlib
import Variational.Code.Expr

/-! The grammar of arithmetic expressions in generated code: sums of products that group to the left, signs in front of
factors, parentheses, names and entries of arrays. A reader with a stack follows every derivation, so each row of tokens
has at most one syntax tree. -/
namespace Variational

namespace Code.Op

/-- The mark of an operation. -/
def mark : Op → Char
  | add => '+'
  | sub => '-'
  | mul => '*'
  | div => '/'

/-- Products bind tighter than sums. -/
def strength : Op → ℕ
  | add => 0
  | sub => 0
  | mul => 1
  | div => 1

def value {K : Type} [Field K] : Op → K → K → K
  | add => (· + ·)
  | sub => (· - ·)
  | mul => (· * ·)
  | div => (· / ·)

/-- The operation with a mark. -/
def ofMark? : Char → Option Op
  | '+' => some add
  | '-' => some sub
  | '*' => some mul
  | '/' => some div
  | _ => none

end Code.Op

namespace Grammar
open Code (Op)

inductive Token where
  /-- A floating point constant. -/
  | number (x : ℚ)
  /-- An integer constant, which may stand for an index only. -/
  | natural (n : ℕ)
  | word (s : String)
  | mark (c : Char)
  deriving DecidableEq

/-- Syntax trees. -/
inductive Tree where
  | number (x : ℚ)
  | place (name : String) (indices : List ℕ)
  | neg (t : Tree)
  | binary (op : Op) (a b : Tree)
  deriving DecidableEq

/-- The value of a tree, where names with indices have values. -/
def Tree.value {K : Type} [Field K] (env : String × List ℕ → K) : Tree → K
  | number x => x
  | place s is => env (s, is)
  | neg t => -t.value env
  | binary op a b => op.value (a.value env) (b.value env)

/-- The tokens of an index. -/
def Token.access (n : ℕ) : List Token := [.mark '[', .natural n, .mark ']']

/-- What the grammar has names for. -/
inductive Level where
  | sum
  | product
  | factor
  | operand

/-- The grammar. -/
inductive Derives : Level → List Token → Tree → Prop
  | number (x : ℚ) : Derives .operand [.number x] (.number x)
  | place (s : String) (is : List ℕ) : Derives .operand (.word s :: is.flatMap Token.access) (.place s is)
  | parens {ts t} : Derives .sum ts t → Derives .operand (.mark '(' :: ts ++ [.mark ')']) t
  | operand {ts t} : Derives .operand ts t → Derives .factor ts t
  | neg {ts t} : Derives .factor ts t → Derives .factor (.mark '-' :: ts) (.neg t)
  | factor {ts t} : Derives .factor ts t → Derives .product ts t
  | times {op ts us t u} : Op.strength op = 1 → Derives .product ts t → Derives .factor us u →
      Derives .product (ts ++ .mark op.mark :: us) (.binary op t u)
  | product {ts t} : Derives .product ts t → Derives .sum ts t
  | plus {op ts us t u} : Op.strength op = 0 → Derives .sum ts t → Derives .product us u →
      Derives .sum (ts ++ .mark op.mark :: us) (.binary op t u)

section Reader

/-- What has been read and waits for an operand on its right. -/
inductive Frame where
  | neg
  | binary (op : Op) (left : Tree)
  | group

/-- Give an operand to what waits for it, down to operations of less than the given strength. -/
def unwind (strength : ℕ) (t : Tree) : List Frame → Tree × List Frame
  | [] => (t, [])
  | .neg :: fs => unwind strength (.neg t) fs
  | .binary op a :: fs =>
    if strength ≤ op.strength then unwind strength (.binary op a t) fs else (t, .binary op a :: fs)
  | .group :: fs => (t, .group :: fs)

/-- Read tokens, with the last operand if the one before was the end of an operand. -/
def read : Option Tree → List Frame → List Token → Option Tree
  | none, fs, .number x :: ts => read (some (.number x)) fs ts
  | none, fs, .word s :: ts => read (some (.place s [])) fs ts
  | none, fs, .mark '(' :: ts => read none (.group :: fs) ts
  | none, fs, .mark '-' :: ts => read none (.neg :: fs) ts
  | none, _, _ => none
  | some (.place s is), fs, .mark '[' :: .natural n :: .mark ']' :: ts => read (some (.place s (is ++ [n]))) fs ts
  | some t, fs, [] =>
    match unwind 0 t fs with
    | (t, []) => some t
    | _ => none
  | some t, fs, .mark ')' :: ts =>
    match unwind 0 t fs with
    | (t, .group :: fs) => read (some t) fs ts
    | _ => none
  | some t, fs, .mark c :: ts =>
    match Op.ofMark? c with
    | some op =>
      let (t, fs) := unwind op.strength t fs
      read none (.binary op t :: fs) ts
    | none => none
  | some _, _, _ => none

theorem unwind_unwind {s s' : ℕ} (h : s ≤ s') (t : Tree) (fs : List Frame) :
    unwind s (unwind s' t fs).1 (unwind s' t fs).2 = unwind s t fs := by
  induction fs generalizing t with
  | nil => rfl
  | cons f fs ih =>
    cases f with
    | neg => exact ih _
    | group => rfl
    | binary op a =>
      by_cases hop : s' ≤ op.strength
      · rw [unwind, if_pos hop, unwind, if_pos (h.trans hop)]
        exact ih _
      · rw [unwind, if_neg hop]

section Steps

variable (t : Tree) (fs : List Frame) (ts : List Token)

theorem read_end : read (some t) fs [] = match unwind 0 t fs with
    | (t, []) => some t
    | _ => none := by
  cases t <;> rfl

theorem read_close : read (some t) fs (.mark ')' :: ts) = match unwind 0 t fs with
    | (t, .group :: fs) => read (some t) fs ts
    | _ => none := by
  cases t <;> rfl

theorem read_op (op : Op) : read (some t) fs (.mark op.mark :: ts) =
    read none (.binary op (unwind op.strength t fs).1 :: (unwind op.strength t fs).2) ts := by
  cases op <;> cases t <;> rfl

theorem read_accesses (s : String) (js is : List ℕ) : read (some (.place s js)) fs (is.flatMap Token.access ++ ts) =
    read (some (.place s (js ++ is))) fs ts := by
  induction is generalizing js with
  | nil => simp
  | cons i is ih =>
    rw [List.flatMap_cons, List.append_assoc, ← List.singleton_append, ← List.append_assoc js, ← ih]
    rfl

end Steps

/-- Nothing waits for an operand at once, but operations of less than the given strength. -/
def Settled (strength : ℕ) : List Frame → Prop
  | [] => True
  | .neg :: _ => False
  | .binary op _ :: _ => op.strength < strength
  | .group :: _ => True

theorem Settled.unwind_eq {strength : ℕ} {fs : List Frame} (h : Settled strength fs) (t : Tree) :
    unwind strength t fs = (t, fs) := by
  match fs, h with
  | [], _ => rfl
  | .binary op a :: fs, h => exact if_neg (not_le.mpr h)
  | .group :: fs, _ => rfl

theorem Settled.mono {s s' : ℕ} (hs : s ≤ s') {fs : List Frame} (h : Settled s fs) : Settled s' fs := by
  match fs, h with
  | [], _ => trivial
  | .binary op a :: fs, h => exact lt_of_lt_of_le h hs
  | .group :: fs, _ => trivial

/-- Reading the tokens of a phrase gives its tree to what waits for it. Where a factor or more has been read, parts of
it may still wait themselves. -/
def Reads : Level → List Token → Tree → Prop
  | .operand, ts, t => ∀ fs rest, read none fs (ts ++ rest) = read (some t) fs rest
  | .factor, ts, t => ∀ fs rest, ∃ u gs, read none fs (ts ++ rest) = read (some u) gs rest ∧
      unwind 2 u gs = unwind 2 t fs
  | .product, ts, t => ∀ fs rest, Settled 1 fs →
      ∃ u gs, read none fs (ts ++ rest) = read (some u) gs rest ∧ unwind 1 u gs = (t, fs)
  | .sum, ts, t => ∀ fs rest, Settled 0 fs →
      ∃ u gs, read none fs (ts ++ rest) = read (some u) gs rest ∧ unwind 0 u gs = (t, fs)

/-- What a phrase leaves waiting is given its tree when the next weaker operation comes. -/
theorem unwind_eq {s s' : ℕ} (h : s ≤ s') {t u : Tree} {fs gs : List Frame} (heq : unwind s' u gs = unwind s' t fs) :
    unwind s u gs = unwind s t fs := by
  rw [← unwind_unwind h u gs, heq, unwind_unwind h]

theorem Derives.reads {l : Level} {ts : List Token} {t : Tree} (h : Derives l ts t) : Reads l ts t := by
  induction h with
  | number x => exact fun fs rest => rfl
  | place s is =>
    intro fs rest
    have hread := read_accesses fs rest s [] is
    rwa [List.nil_append] at hread
  | @parens ts t _ ih =>
    intro fs rest
    obtain ⟨u, gs, hread, hunwind⟩ := ih (.group :: fs) (.mark ')' :: rest) trivial
    have hopen : read none fs (.mark '(' :: ts ++ [.mark ')'] ++ rest) =
        read none (.group :: fs) (ts ++ .mark ')' :: rest) := by
      rw [List.cons_append, List.cons_append, List.append_assoc]
      rfl
    rw [hopen, hread, read_close, hunwind]
  | operand _ ih => exact fun fs rest => ⟨_, fs, ih fs rest, rfl⟩
  | neg _ ih => exact fun fs rest => ih (.neg :: fs) rest
  | factor _ ih =>
    intro fs rest hfs
    obtain ⟨u, gs, hread, hunwind⟩ := ih fs rest
    exact ⟨u, gs, hread, (unwind_eq one_le_two hunwind).trans (hfs.unwind_eq _)⟩
  | @times op ts us t u hop _ _ iht ihu =>
    intro fs rest hfs
    obtain ⟨v, gs, hread, hunwind⟩ := iht fs (.mark op.mark :: us ++ rest) hfs
    obtain ⟨w, ks, hread', hunwind'⟩ := ihu (.binary op t :: fs) rest
    refine ⟨w, ks, ?_, ?_⟩
    · rw [List.append_assoc, hread, List.cons_append, read_op, hop, hunwind, hread']
    · rw [unwind_eq one_le_two hunwind', unwind, if_pos hop.ge]
      exact hfs.unwind_eq _
  | product _ ih =>
    intro fs rest hfs
    have hfs' := hfs.mono zero_le_one
    obtain ⟨u, gs, hread, hunwind⟩ := ih fs rest hfs'
    exact ⟨u, gs, hread, (unwind_eq zero_le_one (hunwind.trans (hfs'.unwind_eq _).symm)).trans (hfs.unwind_eq _)⟩
  | @plus op ts us t u hop _ _ iht ihu =>
    intro fs rest hfs
    obtain ⟨v, gs, hread, hunwind⟩ := iht fs (.mark op.mark :: us ++ rest) hfs
    have hwaits : Settled 1 (.binary op t :: fs) := by
      rw [Settled, hop]
      exact Nat.one_pos
    obtain ⟨w, ks, hread', hunwind'⟩ := ihu (.binary op t :: fs) rest hwaits
    refine ⟨w, ks, ?_, ?_⟩
    · rw [List.append_assoc, hread, List.cons_append, read_op, hop, hunwind, hread']
    · rw [unwind_eq zero_le_one (hunwind'.trans (hwaits.unwind_eq u).symm), unwind, if_pos hop.ge]
      exact hfs.unwind_eq _

/-- Each row of tokens has at most one tree. -/
theorem Derives.unique {ts : List Token} {t u : Tree} (ht : Derives .sum ts t) (hu : Derives .sum ts u) : t = u := by
  have hread {v : Tree} (hv : Derives .sum ts v) : read none [] ts = some v := by
    obtain ⟨w, gs, hread, hunwind⟩ := hv.reads [] [] trivial
    rw [List.append_nil] at hread
    rw [hread, read_end, hunwind]
  exact Option.some.inj ((hread ht).symm.trans (hread hu))

end Reader
end Grammar
end Variational
