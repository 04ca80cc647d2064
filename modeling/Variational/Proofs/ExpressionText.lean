import Variational.Proofs.ExpressionTokens

/-! What generated expressions denote. Their text is read by the grammar, with blanks left out and words as long as
possible; the value of a text is put together from the values of its parts. -/
namespace Variational.Grammar
open Code (Op Expr)

variable {K : Type} [Field K]

/-- A text is an expression: it has exactly one syntax tree, and this is its value. -/
def Denotes (env : String × List ℕ → K) (text : String) (x : K) : Prop :=
  ∃ ts t, tokens? text = some ts ∧ Derives .sum ts t ∧ (∀ u, Derives .sum ts u → u = t) ∧ t.value env = x

/-- A part of an expression. -/
def Phrase (env : String × List ℕ → K) (l : Level) (cs : List Char) (x : K) : Prop :=
  ∃ ts t, Lexes cs ts ∧ Derives l ts t ∧ t.value env = x

/-- A text begins with a word or a parenthesis, which is not read together with a mark in front of it. -/
def Opens (cs : List Char) : Prop := ∃ c ∈ cs.head?, isWordChar c = true ∨ c = '('

theorem joins_eq_false {d : Char} (hd : isWordChar d = true ∨ d = '(') (c : Char) : joins c d = false := by
  have hmarks : ['+', '-', '*', '/', '=', '>'].all (fun m => !isWordChar m && m != '(') = true := by decide
  have hne (m : Char) (hm : m ∈ ['+', '-', '*', '/', '=', '>']) : (d == m) = false := by
    have hmark := List.all_eq_true.mp hmarks m hm
    rw [Bool.and_eq_true, Bool.not_eq_true', bne_iff_ne] at hmark
    rw [beq_eq_false_iff_ne]
    rintro rfl
    rcases hd with hd | hd
    · exact Bool.false_ne_true (hmark.1.symm.trans hd)
    · exact hmark.2 hd
  unfold joins
  split <;> simp [hne]

theorem Opens.joins {cs : List Char} (h : Opens cs) (c : Char) (rest : List Char) :
    (cs ++ rest).head?.any (joins c) = false := by
  obtain ⟨d, hd, hopens⟩ := h
  rw [List.head?_append, Option.mem_def.mp hd]
  exact joins_eq_false hopens c

theorem Op.mark_mem (op : Op) : op.mark ∈ marks := by
  cases op <;> decide

theorem Op.delimited_mark (op : Op) (cs : List Char) : Delimited (op.mark :: cs) := by
  cases op <;> exact delimited_cons rfl (by decide) cs

/-- No mark of an operation is read together with a blank. -/
theorem Op.joins_blank (op : Op) : joins op.mark ' ' = false := by
  cases op <;> rfl

namespace Phrase

variable {env : String × List ℕ → K} {l : Level} {cs ds : List Char} {x y : K}

theorem denotes {text : String} (h : Phrase env .sum text.toList x) : Denotes env text x := by
  obtain ⟨ts, t, hlexes, hderives, hvalue⟩ := h
  exact ⟨ts, t, hlexes.scan_eq, hderives, fun u hu => hu.unique hderives, hvalue⟩

theorem map {l' : Level} (hl : ∀ ts t, Derives l ts t → Derives l' ts t) (h : Phrase env l cs x) :
    Phrase env l' cs x := by
  obtain ⟨ts, t, hlexes, hderives, hvalue⟩ := h
  exact ⟨ts, t, hlexes, hl ts t hderives, hvalue⟩

theorem factor (h : Phrase env .operand cs x) : Phrase env .factor cs x := h.map fun _ _ => .operand

theorem product (h : Phrase env .factor cs x) : Phrase env .product cs x := h.map fun _ _ => .factor

theorem sum (h : Phrase env .product cs x) : Phrase env .sum cs x := h.map fun _ _ => .product

theorem neg (h : Phrase env .operand cs x) (hopens : Opens cs) : Phrase env .factor ('-' :: cs) (-x) := by
  obtain ⟨ts, t, hlexes, hderives, rfl⟩ := h
  exact ⟨_, _, hlexes.mark (by decide) (hopens.joins _), .neg (.operand hderives), rfl⟩

theorem parens (h : Phrase env .sum cs x) : Phrase env .operand ('(' :: cs ++ [')']) x := by
  obtain ⟨ts, t, hlexes, hderives, rfl⟩ := h
  have hclose : Lexes [')'] [.mark ')'] := lexes_nil.bracket (by decide) fun _ => rfl
  have hopen : Lexes ('(' :: cs) (.mark '(' :: ts) := hlexes.bracket (by decide) fun _ => rfl
  exact ⟨_, _, hopen.append hclose fun rest => delimited_cons rfl (by decide) rest, .parens hderives, rfl⟩

/-- An operation that binds tightly. -/
theorem times (op : Op) (hop : op.strength = 1) (h : Phrase env .product cs x) (h' : Phrase env .operand ds y)
    (hopens : Opens ds) : Phrase env .product (cs ++ op.mark :: ds) (op.value x y) := by
  obtain ⟨ts, t, hlexes, hderives, rfl⟩ := h
  obtain ⟨us, u, hlexes', hderives', rfl⟩ := h'
  have hmark := hlexes'.mark (Op.mark_mem op) (hopens.joins _)
  exact ⟨_, _, hlexes.append hmark fun rest => Op.delimited_mark op _, .times hop hderives (.operand hderives'), rfl⟩

/-- An operation that binds loosely, with blanks around its mark. -/
theorem plus (op : Op) (hop : op.strength = 0) (h : Phrase env .sum cs x) (h' : Phrase env .product ds y) :
    Phrase env .sum (cs ++ ' ' :: op.mark :: ' ' :: ds) (op.value x y) := by
  obtain ⟨ts, t, hlexes, hderives, rfl⟩ := h
  obtain ⟨us, u, hlexes', hderives', rfl⟩ := h'
  have hjoins (rest : List Char) : (' ' :: ds ++ rest).head?.any (joins op.mark) = false := Op.joins_blank op
  have hmark := hlexes'.blank.mark (Op.mark_mem op) hjoins
  exact ⟨_, _, hlexes.append hmark.blank fun rest => delimited_cons rfl (by decide) _,
    .plus hop hderives hderives', rfl⟩

end Phrase

section Places

/-- The text of an index. -/
def access (n : ℕ) : List Char := '[' :: Nat.toDigits 10 n ++ [']']

theorem lexes_access (n : ℕ) : Lexes (access n) (Token.access n) := by
  have hclose : Lexes [']'] [.mark ']'] := lexes_nil.bracket (by decide) fun _ => rfl
  have hopen := (lexes_natural n).bracket (c := '[') (by decide) fun _ => rfl
  exact hopen.append hclose fun rest => delimited_cons rfl (by decide) rest

theorem lexes_place {s : String} (hs : Lexes s.toList [.word s]) (is : List ℕ) :
    Lexes (s.toList ++ is.flatMap access) (.word s :: is.flatMap Token.access) := by
  induction is using List.reverseRecOn with
  | nil => simpa using hs
  | append_singleton is i ih =>
    have hlexes := ih.append (lexes_access i) fun rest => delimited_cons rfl (by decide) _
    simpa using hlexes

/-- A name with indices. -/
theorem phrase_place (env : String × List ℕ → K) {s : String} (hne : s.toList ≠ [])
    (hword : ∀ c ∈ s.toList, isWordChar c = true) (hhead : s.toList.head?.any Char.isDigit = false) (is : List ℕ) :
    Phrase env .operand (s.toList ++ is.flatMap access) (env (s, is)) :=
  ⟨_, _, lexes_place (lexes_name hne hword hhead) is, .place s is, rfl⟩

end Places

section Expressions

variable {ι : Type} {env : String × List ℕ → K} {places : ℕ} {f : ι → Expr Float} {g : ι → K}

theorem phrase_foldl_times {e : Expr Float} {x : K} {is : List ι} (he : Phrase env .product (e.text places).toList x)
    (his : ∀ i ∈ is, Phrase env .operand ((f i).text places).toList (g i) ∧ Opens ((f i).text places).toList) :
    Phrase env .product (((is.map f).foldl Expr.times e).text places).toList (x * (is.map g).prod) := by
  induction is generalizing e x with
  | nil => simpa using he
  | cons i is ih =>
    rw [List.forall_mem_cons] at his
    have htimes : Phrase env .product ((e.times (f i)).text places).toList (x * g i) := by
      have hphrase := he.times .mul rfl his.1.1 his.1.2
      simpa [Expr.times, Expr.text, Op.sign, Op.mark, Op.value] using hphrase
    have hrest := ih htimes his.2
    rwa [mul_assoc, ← List.prod_cons] at hrest

theorem phrase_foldl_plus {e : Expr Float} {x : K} {is : List ι} (he : Phrase env .sum (e.text places).toList x)
    (his : ∀ i ∈ is, Phrase env .product ((f i).text places).toList (g i)) :
    Phrase env .sum (((is.map f).foldl Expr.plus e).text places).toList (x + (is.map g).sum) := by
  induction is generalizing e x with
  | nil => simpa using he
  | cons i is ih =>
    rw [List.forall_mem_cons] at his
    have hplus : Phrase env .sum ((e.plus (f i)).text places).toList (x + g i) := by
      have hphrase := he.plus .add rfl his.1
      simpa [Expr.plus, Expr.text, Op.sign, Op.mark, Op.value] using hphrase
    have hrest := ih hplus his.2
    rwa [add_assoc, ← List.sum_cons] at hrest

end Expressions
end Variational.Grammar
