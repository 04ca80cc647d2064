import Mathlib
import Variational.Report
import Variational.Proofs.PolynomialText

/-! Monomials of the report. Their text is that of generated code with the marks of products, the indices of the
Jacobian and of its inverse and the divisions by the determinant rewritten. Divisions by its third and higher powers are
not rewritten and keep the name that the determinant has in code. -/
namespace Variational

namespace Report
open Substitution

section Rewriting

/-- Put the digits after a letter and an underscore into braces. -/
def braceDigits (letter : Char) : List Char → List Char
  | [] => []
  | c :: '_' :: cs =>
    if c = letter then
      c :: '_' :: '\x7b' :: cs.takeWhile Char.isDigit ++ '\x7d' :: braceDigits letter (cs.dropWhile Char.isDigit)
    else c :: braceDigits letter ('_' :: cs)
  | c :: cs => c :: braceDigits letter cs
termination_by cs => cs.length
decreasing_by
  · have := (List.dropWhile_suffix Char.isDigit (l := cs)).length_le
    simp
    omega
  · simp
  · simp

/-- Products are written with blanks. -/
def spaced (c : Char) : Char := if c = '*' then ' ' else c

/-- An expression of generated code in math mode. -/
def inMathMode (expression : List Char) : List Char :=
  let spaced := expression.map spaced
  let squared := substitute "/(detJ detJ)".toList " / (\\det J)^2".toList 0 spaced
  let divided := substitute "/detJ".toList " / \\det J".toList 0 squared
  braceDigits 'K' (braceDigits 'J' divided)

variable {xs : List Char} {d letter : Char}

theorem takeWhile_digits_append (hdigit : d.isDigit = false) (xs ys : List Char) :
    (xs ++ d :: ys).takeWhile Char.isDigit = xs.takeWhile Char.isDigit ∧
      (xs ++ d :: ys).dropWhile Char.isDigit = xs.dropWhile Char.isDigit ++ d :: ys := by
  induction xs with
  | nil => simp [hdigit]
  | cons x xs ih => cases hx : x.isDigit <;> simp [hx, ih]

/-- Braces are closed at the latest before a character that is not a digit, and only an underscore can open them. -/
theorem braceDigits_append (hdigit : d.isDigit = false) (hunderscore : d ≠ '_') (xs ys : List Char) :
    braceDigits letter (xs ++ d :: ys) = braceDigits letter xs ++ braceDigits letter (d :: ys) := by
  fun_induction braceDigits letter xs with
  | case1 => rfl
  | case2 cs ih =>
    obtain ⟨htake, hdrop⟩ := takeWhile_digits_append hdigit cs ys
    rw [List.cons_append, List.cons_append, braceDigits, if_pos rfl, htake, hdrop, ih]
    simp
  | case3 c cs hne ih =>
    rw [List.cons_append, List.cons_append, braceDigits, if_neg hne, ← List.cons_append, ih]
    rfl
  | case4 c cs hnext ih =>
    have hnext' : ∀ ds, cs ++ d :: ys = '_' :: ds → False := by
      intro ds h
      cases cs with
      | nil => exact hunderscore (List.cons.inj h).1
      | cons x xs => exact hnext xs (congrArg (· :: xs) (List.cons.inj h).1)
    rw [List.cons_append, braceDigits.eq_3 _ _ _ hnext', ih]
    rfl

theorem braceDigits_cons {c : Char} (hne : c ≠ letter) (cs : List Char) :
    braceDigits letter (c :: cs) = c :: braceDigits letter cs := by
  rw [braceDigits.eq_def]
  split <;> simp_all

theorem braceDigits_of_notMem (h : letter ∉ xs) : braceDigits letter xs = xs := by
  fun_induction braceDigits letter xs with
  | case1 => rfl
  | case2 => simp at h
  | case3 c cs hne ih => rw [ih (List.not_mem_of_not_mem_cons h)]
  | case4 c cs hne ih => rw [ih (List.not_mem_of_not_mem_cons h)]

theorem braceDigits_flatMap {tail : List Char}
    (htail : tail = [] ∨ ∃ c cs, tail = c :: cs ∧ c.isDigit = false ∧ c ≠ '_') (hblank : letter ≠ ' ')
    (text : List Char) (texts : List (List Char)) :
    braceDigits letter (text ++ (texts.flatMap (' ' :: ·) ++ tail)) =
      braceDigits letter text ++ ((texts.map (braceDigits letter)).flatMap (' ' :: ·) ++ braceDigits letter tail) := by
  induction texts generalizing text with
  | nil =>
    rcases htail with rfl | ⟨c, cs, rfl, hdigit, hunderscore⟩
    · simp [braceDigits]
    · exact braceDigits_append hdigit hunderscore text cs
  | cons u us ih =>
    rw [List.flatMap_cons, List.append_assoc, List.cons_append, braceDigits_append rfl (by decide),
      braceDigits_cons hblank.symm, ih]
    simp

end Rewriting

section Texts

variable (places : ℕ) {m : Monomial Float}

/-- The texts of the factors of a monomial, with names for the symbols. -/
def factorTexts (places : ℕ) (name : Symbol → String) (m : Monomial Float) : List (List Char) :=
  (if m.hidesCoefficient then [] else [(Scientific.literal m.coefficient places).toList]) ++
    m.symbols.map fun s => (name s).toList

/-- A division by a power of the determinant, under its name in code and with a mark between the factors. -/
def namedDivision (mark : Char) : ℕ → List Char
  | 0 => []
  | 1 => ['/', 'd', 'e', 't', 'J']
  | p + 2 => ['/', '(', 'd', 'e', 't', 'J'] ++
    ((List.replicate (p + 1) ['d', 'e', 't', 'J']).flatMap (mark :: ·) ++ [')'])

theorem toList_product (e : Code.Expr Float) (es : List (Code.Expr Float)) :
    ((Code.Expr.product (e :: es)).text places).toList =
      (e.text places).toList ++ (es.map fun f => (f.text places).toList).flatMap ('*' :: ·) := by
  rw [Code.Expr.product]
  induction es generalizing e with
  | nil => simp
  | cons f fs ih =>
    rw [List.foldl_cons, ih, List.map_cons, List.flatMap_cons, ← List.append_assoc]
    congr 1
    simp [Code.Expr.times, Code.Expr.text, Code.Op.sign]

theorem intercalate_eq (mark : Char) (text : List Char) (texts : List (List Char)) :
    [mark].intercalate (text :: texts) = text ++ texts.flatMap (mark :: ·) := by
  induction texts generalizing text with
  | nil => simp
  | cons t ts ih => simp [List.intercalate_cons_cons, ih]

/-- A monomial has a factor, because its coefficient is left out in front of symbols only. -/
theorem factorTexts_ne_nil (name : Symbol → String) : factorTexts places name m ≠ [] := by
  unfold factorTexts
  split_ifs with hhides
  · have hsymbols : m.symbols ≠ [] := by
      intro hnil
      simp [Monomial.hidesCoefficient, hnil] at hhides
    simpa using hsymbols
  · simp

/-- The factors of a monomial in code. -/
def codeFactors (m : Monomial Float) : List (Code.Expr Float) :=
  (if m.hidesCoefficient then [] else [.literal m.coefficient]) ++ m.symbols.map Symbol.expr

theorem factorTexts_eq : factorTexts places Symbol.name m = (codeFactors m).map fun e => (e.text places).toList := by
  rw [factorTexts, codeFactors, List.map_append, List.map_map, apply_ite (List.map _)]
  congr 1
  refine List.map_congr_left fun s _ => ?_
  rw [Function.comp_apply, Symbol.text_expr]

/-- A monomial in code is the product of its factors over the power of the determinant. -/
theorem toList_expr {text : List Char} {texts : List (List Char)}
    (h : factorTexts places Symbol.name m = text :: texts) :
    (m.expr.text places).toList = text ++ (texts.flatMap ('*' :: ·) ++ namedDivision '*' m.detPower) := by
  rw [factorTexts_eq] at h
  obtain ⟨e, es, hes, rfl, rfl⟩ := List.map_eq_cons_iff.mp h
  have hproduct := toList_product places e es
  rw [← hes] at hproduct
  have hname : ((Code.Expr.name "detJ" : Code.Expr Float).text places).toList = "detJ".toList := rfl
  rw [← List.append_assoc, ← hproduct]
  rcases hpower : m.detPower with _ | _ | p
  · have hexpr : m.expr = .product (codeFactors m) := by
      rw [Monomial.expr, hpower]
      rfl
    simp [hexpr, namedDivision]
  · have hexpr : m.expr = (Code.Expr.product (codeFactors m)).divide (.name "detJ") := by
      rw [Monomial.expr, hpower]
      rfl
    simp [hexpr, Code.Expr.divide, Code.Expr.text, Code.Op.sign, namedDivision]
  · have hexpr : m.expr = (Code.Expr.product (codeFactors m)).divide
        (.parens (.product (List.replicate (p + 2) (.name "detJ")))) := by
      rw [Monomial.expr, hpower]
      rfl
    have hdivisor := toList_product places (.name "detJ") (List.replicate (p + 1) (.name "detJ"))
    rw [← List.replicate_succ, List.map_replicate, hname] at hdivisor
    simp [hexpr, Code.Expr.divide, Code.Expr.text, Code.Op.sign, namedDivision, hdivisor]

theorem toList_monomial {text : List Char} {texts : List (List Char)}
    (h : factorTexts places symbol m = text :: texts) :
    (monomial places m).toList = text ++ (texts.flatMap (' ' :: ·) ++ (overDeterminant m.detPower).toList) := by
  have hfactors : (" ".intercalate ((if m.hidesCoefficient then [] else [Scientific.literal m.coefficient places]) ++
      m.symbols.map symbol)).toList = text ++ texts.flatMap (' ' :: ·) := by
    rw [String.toList_intercalate, ← intercalate_eq, ← h, factorTexts, List.map_append, List.map_map,
      apply_ite (List.map _)]
    rfl
  rw [monomial, String.toList_append, ← List.append_assoc, ← hfactors]
  rfl

end Texts

section Characters

/-- The characters of texts with digits and some other marks. -/
def IsPlain (marks : List Char) (c : Char) : Prop := c.isDigit = true ∨ c ∈ marks

/-- The marks of numbers. -/
def numberMarks : List Char := ['.', 'e', '+', '-', 'N', 'a', 'i', 'n', 'f']

/-- The marks of symbols in code and in the report. -/
def symbolMarks : List Char := ['J', 'K', 'c', 'w', '_', '[', ']', '\x7b', '\x7d']

variable {marks : List Char}

theorem isPlain_toString (n : ℕ) : ∀ c ∈ (toString n).toList, IsPlain marks c :=
  fun _ hc => .inl (isDigit_of_mem_toString hc)

theorem isPlain_padded (width n : ℕ) : ∀ c ∈ Scientific.padded width n, IsPlain marks c :=
  fun c hc => .inl (Scientific.padded_digits width n c hc)

theorem isPlain_literal (x : Float) (places : ℕ) :
    ∀ c ∈ (Scientific.literal x places).toList, IsPlain numberMarks c := by
  have hsign (b : Bool) : ∀ c ∈ (if b then ['-'] else []), IsPlain numberMarks c := by
    cases b <;> simp [IsPlain, numberMarks]
  have hexponent (e : ℤ) : ∀ c ∈ Scientific.literalStyle.exponent e, IsPlain numberMarks c := by
    refine List.forall_mem_append.mpr ⟨?_, isPlain_padded _ _⟩
    split_ifs <;> simp [IsPlain, numberMarks]
  have hrounded (r : Scientific.Rounded) :
      ∀ c ∈ Scientific.literalStyle.rounded places r, IsPlain numberMarks c := by
    have hdigits : ∀ c ∈ Scientific.padded (places + 1) r.mantissa, IsPlain numberMarks c := isPlain_padded _ _
    refine List.forall_mem_append.mpr ⟨?_, List.forall_mem_cons.mpr ⟨by simp [IsPlain, numberMarks], hexponent _⟩⟩
    have hpoint : IsPlain numberMarks '.' := by simp [IsPlain, numberMarks]
    split <;> simp_all
  rw [Scientific.literal, Scientific.Style.format, String.toList_ofList]
  cases Scientific.Binary.ofFloat x with
  | nan => simp [Scientific.Style.chars, Scientific.literalStyle, IsPlain, numberMarks]
  | infinite negative =>
    refine List.forall_mem_append.mpr ⟨hsign negative, ?_⟩
    simp [Scientific.literalStyle, IsPlain, numberMarks]
  | finite negative m q => exact List.forall_mem_append.mpr ⟨hsign negative, hrounded _⟩

theorem notMem_literal {d : Char} (hd : ¬ IsPlain numberMarks d) (x : Float) (places : ℕ) :
    d ∉ (Scientific.literal x places).toList :=
  fun hmem => hd (isPlain_literal x places d hmem)

theorem toList_name (s : Symbol) : s.name.toList = match s with
    | .jacobian i j => ['J', '_'] ++ ((toString i).toList ++ (toString j).toList)
    | .inverseJacobian i j => ['K', '_'] ++ ((toString i).toList ++ (toString j).toList)
    | .constant n => ['c'] ++ (toString n).toList
    | .coefficient n j => ['w', '['] ++ ((toString n).toList ++ ([']', '['] ++ ((toString j).toList ++ [']']))) := by
  cases s <;> simp [Symbol.name, toString]

theorem toList_symbol (s : Symbol) : (symbol s).toList = match s with
    | .jacobian i j => ['J', '_', '\x7b'] ++ ((toString i).toList ++ ((toString j).toList ++ ['\x7d']))
    | .inverseJacobian i j => ['K', '_', '\x7b'] ++ ((toString i).toList ++ ((toString j).toList ++ ['\x7d']))
    | s => s.name.toList := by
  cases s <;> simp [symbol, braced, toString]

theorem isPlain_append {xs ys : List Char} (hxs : xs ⊆ marks) (hys : ∀ c ∈ ys, IsPlain marks c) :
    ∀ c ∈ xs ++ ys, IsPlain marks c :=
  List.forall_mem_append.mpr ⟨fun _ hc => .inr (hxs hc), hys⟩

theorem isPlain_number (n : ℕ) {ys : List Char} (hys : ∀ c ∈ ys, IsPlain marks c) :
    ∀ c ∈ (toString n).toList ++ ys, IsPlain marks c :=
  List.forall_mem_append.mpr ⟨isPlain_toString n, hys⟩

theorem isPlain_name (s : Symbol) : ∀ c ∈ s.name.toList, IsPlain symbolMarks c := by
  rw [toList_name]
  cases s with
  | jacobian i j | inverseJacobian i j =>
    exact isPlain_append (by simp [symbolMarks]) (isPlain_number i (isPlain_toString j))
  | constant n => exact isPlain_append (by simp [symbolMarks]) (isPlain_toString n)
  | coefficient n j =>
    have hclosing : ∀ c ∈ [']'], IsPlain symbolMarks c := by simp [IsPlain, symbolMarks]
    exact isPlain_append (by simp [symbolMarks]) (isPlain_number n
      (isPlain_append (by simp [symbolMarks]) (isPlain_number j hclosing)))

theorem isPlain_symbol (s : Symbol) : ∀ c ∈ (symbol s).toList, IsPlain symbolMarks c := by
  have hname := isPlain_name s
  rw [toList_symbol]
  cases s with
  | jacobian i j | inverseJacobian i j =>
    have hclosing : ∀ c ∈ ['\x7d'], IsPlain symbolMarks c := by simp [IsPlain, symbolMarks]
    exact isPlain_append (by simp [symbolMarks]) (isPlain_number i (isPlain_number j hclosing))
  | constant n => exact hname
  | coefficient n j => exact hname

/-- The texts of the factors have no marks of operators. -/
theorem notMem_factorTexts {name : Symbol → String} (hname : ∀ s, ∀ c ∈ (name s).toList, IsPlain symbolMarks c)
    {d : Char} (hd : ¬ IsPlain numberMarks d ∧ ¬ IsPlain symbolMarks d) (places : ℕ) (m : Monomial Float) :
    ∀ text ∈ factorTexts places name m, d ∉ text := by
  intro text htext hmem
  rcases List.mem_append.mp htext with hnumber | hsymbol
  · split_ifs at hnumber
    · cases hnumber
    · rw [List.mem_singleton.mp hnumber] at hmem
      exact notMem_literal hd.1 _ _ hmem
  · obtain ⟨s, -, rfl⟩ := List.mem_map.mp hsymbol
    exact hd.2 (hname s d hmem)

/-- Digits after the letter and an underscore. -/
theorem braceDigits_number {letter : Char} {digits : List Char} (hdigits : ∀ c ∈ digits, c.isDigit = true) :
    braceDigits letter (letter :: '_' :: digits) = letter :: '_' :: '\x7b' :: (digits ++ ['\x7d']) := by
  rw [braceDigits, if_pos rfl, List.takeWhile_eq_self_iff.mpr hdigits, List.dropWhile_eq_nil_iff.mpr hdigits,
    braceDigits]
  simp

theorem isDigit_indices (i j : ℕ) : ∀ c ∈ (toString i).toList ++ (toString j).toList, c.isDigit = true := by
  have hplain : ∀ c ∈ (toString i).toList ++ (toString j).toList, IsPlain [] c := isPlain_number i (isPlain_toString j)
  exact fun c hc => (hplain c hc).resolve_right List.not_mem_nil

theorem notMem_digits {letter : Char} (hletter : letter.isDigit = false) (n : ℕ) : letter ∉ Nat.toDigits 10 n := by
  simpa using delimiter_notMem_toString hletter n

/-- The indices of an entry of the Jacobian or of its inverse are put into braces. -/
theorem braceDigits_name (s : Symbol) : braceDigits 'K' (braceDigits 'J' s.name.toList) = (symbol s).toList := by
  have hJ := @notMem_digits 'J' rfl
  have hK := @notMem_digits 'K' rfl
  rw [toList_symbol]
  cases s with
  | jacobian i j =>
    have hbraced : braceDigits 'J' (Symbol.jacobian i j).name.toList =
        ['J', '_', '\x7b'] ++ ((toString i).toList ++ ((toString j).toList ++ ['\x7d'])) := by
      rw [toList_name, ← List.append_assoc (toString i).toList]
      exact braceDigits_number (isDigit_indices i j)
    rw [hbraced, braceDigits_of_notMem (by simp [hK])]
  | inverseJacobian i j =>
    have hunchanged : 'J' ∉ (Symbol.inverseJacobian i j).name.toList := by simp [toList_name, hJ]
    have hbraced : braceDigits 'K' (Symbol.inverseJacobian i j).name.toList =
        ['K', '_', '\x7b'] ++ ((toString i).toList ++ ((toString j).toList ++ ['\x7d'])) := by
      rw [toList_name, ← List.append_assoc (toString i).toList]
      exact braceDigits_number (isDigit_indices i j)
    rw [braceDigits_of_notMem hunchanged, hbraced]
  | constant n =>
    have hunchanged : 'J' ∉ (Symbol.constant n).name.toList ∧ 'K' ∉ (Symbol.constant n).name.toList := by
      simp [toList_name, hJ, hK]
    rw [braceDigits_of_notMem hunchanged.1, braceDigits_of_notMem hunchanged.2]
  | coefficient n j =>
    have hunchanged : 'J' ∉ (Symbol.coefficient n j).name.toList ∧ 'K' ∉ (Symbol.coefficient n j).name.toList := by
      simp [toList_name, hJ, hK]
    rw [braceDigits_of_notMem hunchanged.1, braceDigits_of_notMem hunchanged.2]

end Characters

section Rewritten

variable (places : ℕ) {m : Monomial Float}

theorem braceDigits_of_no_underscore {letter : Char} {xs : List Char} (h : '_' ∉ xs) : braceDigits letter xs = xs := by
  fun_induction braceDigits letter xs with
  | case1 => rfl
  | case2 => simp at h
  | case3 => simp at h
  | case4 c cs hne ih => rw [ih (List.not_mem_of_not_mem_cons h)]

/-- The texts of the factors, with the indices put into braces. -/
theorem factorTexts_symbol : factorTexts places symbol m =
    ((factorTexts places Symbol.name m).map (braceDigits 'J')).map (braceDigits 'K') := by
  have hnumber : braceDigits 'K' (braceDigits 'J' (Scientific.literal m.coefficient places).toList) =
      (Scientific.literal m.coefficient places).toList := by
    rw [braceDigits_of_notMem (notMem_literal (by simp [IsPlain, numberMarks]) _ _),
      braceDigits_of_notMem (notMem_literal (by simp [IsPlain, numberMarks]) _ _)]
  simp only [factorTexts, List.map_append, List.map_map]
  congr 1
  · split_ifs
    · rfl
    · simp [hnumber]
  · exact List.map_congr_left fun s _ => (braceDigits_name s).symm

theorem map_spaced {xs : List Char} (h : '*' ∉ xs) : xs.map spaced = xs := by
  refine (List.map_congr_left fun c hc => ?_).trans xs.map_id
  rw [spaced, if_neg, id_eq]
  rintro rfl
  exact h hc

theorem map_spaced_flatMap {texts : List (List Char)} (h : ∀ text ∈ texts, '*' ∉ text) :
    (texts.flatMap ('*' :: ·)).map spaced = texts.flatMap (' ' :: ·) := by
  rw [List.map_flatMap]
  exact List.flatMap_congr fun text htext => congrArg (' ' :: ·) (map_spaced (h text htext))

theorem map_namedDivision (p : ℕ) : (namedDivision '*' p).map spaced = namedDivision ' ' p := by
  match p with
  | 0 => rfl
  | 1 => simp [namedDivision, spaced]
  | p + 2 =>
    have hnames : ∀ text ∈ List.replicate (p + 1) ['d', 'e', 't', 'J'], '*' ∉ text := by simp
    rw [namedDivision, List.map_append, List.map_append, map_spaced_flatMap hnames]
    simp [namedDivision, spaced]

theorem overDeterminant_named (p : ℕ) : (overDeterminant (p + 3)).toList = namedDivision ' ' (p + 3) := by
  have hblanks : (" ".intercalate (List.replicate (p + 3) "detJ")).toList =
      "detJ".toList ++ (List.replicate (p + 2) "detJ".toList).flatMap (' ' :: ·) := by
    rw [String.toList_intercalate, List.map_replicate, List.replicate_succ]
    exact intercalate_eq ' ' _ _
  simp [overDeterminant, namedDivision, hblanks]

/-- A division by the determinant or by its square is rewritten, one by a higher power is left as it is. -/
theorem substitute_division (p : ℕ) : substitute "/detJ".toList " / \\det J".toList 0
    (substitute "/(detJ detJ)".toList " / (\\det J)^2".toList 0 (namedDivision ' ' p)) =
      (overDeterminant p).toList := by
  match p with
  | 0 => simp [namedDivision, substitute, overDeterminant]
  | 1 => simp [namedDivision, substitute, overDeterminant]
  | 2 => simp [namedDivision, substitute, overDeterminant]
  | p + 3 =>
    obtain ⟨rest, hnamed, hslash⟩ : ∃ rest,
        namedDivision ' ' (p + 3) = "/(detJ detJ detJ".toList ++ rest ∧ '/' ∉ rest :=
      ⟨(List.replicate p "detJ".toList).flatMap (' ' :: ·) ++ [')'],
        by simp [namedDivision, List.replicate_succ], by simp⟩
    rw [overDeterminant_named, hnamed]
    simp [substitute, substitute_of_notMem hslash]

theorem overDeterminant_begins (p : ℕ) : (overDeterminant p).toList = [] ∨
    ∃ c cs, (overDeterminant p).toList = c :: cs ∧ c.isDigit = false ∧ c ≠ '_' := by
  match p with
  | 0 => exact .inl rfl
  | 1 => exact .inr ⟨' ', "/ \\det J".toList, by simp [overDeterminant]⟩
  | 2 => exact .inr ⟨' ', "/ (\\det J)^2".toList, by simp [overDeterminant]⟩
  | p + 3 =>
    rw [overDeterminant_named]
    exact .inr ⟨'/', _, rfl, by decide, by decide⟩

theorem underscore_notMem_overDeterminant (p : ℕ) : '_' ∉ (overDeterminant p).toList := by
  match p with
  | 0 => simp [overDeterminant]
  | 1 => simp [overDeterminant]
  | 2 => simp [overDeterminant]
  | p + 3 => simp [overDeterminant_named, namedDivision]

/-- The report rewrites the text of generated code. -/
theorem toList_monomial_eq (m : Monomial Float) :
    (monomial places m).toList = inMathMode (m.expr.text places).toList := by
  obtain ⟨text, texts, htexts⟩ := List.exists_cons_of_ne_nil (factorTexts_ne_nil places Symbol.name (m := m))
  have hsymbols : factorTexts places symbol m = braceDigits 'K' (braceDigits 'J' text) ::
      (texts.map (braceDigits 'J')).map (braceDigits 'K') := by
    rw [factorTexts_symbol, htexts]
    rfl
  have hstar := notMem_factorTexts isPlain_name (d := '*') (by simp [IsPlain, numberMarks, symbolMarks]) places m
  have hslash := notMem_factorTexts isPlain_name (d := '/') (by simp [IsPlain, numberMarks, symbolMarks]) places m
  rw [htexts, List.forall_mem_cons] at hstar hslash
  have hproduct : '/' ∉ text ++ texts.flatMap (' ' :: ·) := by
    simp only [List.mem_append, List.mem_flatMap, not_or, not_exists, not_and]
    exact ⟨hslash.1, fun t ht => List.not_mem_cons_of_ne_of_not_mem (by decide) (hslash.2 t ht)⟩
  have hspaced : (m.expr.text places).toList.map spaced =
      (text ++ texts.flatMap (' ' :: ·)) ++ namedDivision ' ' m.detPower := by
    rw [toList_expr places htexts, List.map_append, List.map_append, map_spaced hstar.1, map_spaced_flatMap hstar.2,
      map_namedDivision, List.append_assoc]
  have hdivided : substitute "/detJ".toList " / \\det J".toList 0
      (substitute "/(detJ detJ)".toList " / (\\det J)^2".toList 0 ((m.expr.text places).toList.map spaced)) =
      text ++ (texts.flatMap (' ' :: ·) ++ (overDeterminant m.detPower).toList) := by
    have hdivision := substitute_division m.detPower
    simp only [String.reduceToList] at hdivision ⊢
    rw [hspaced, substitute_append_of_notMem hproduct, substitute_append_of_notMem hproduct, hdivision,
      List.append_assoc]
  have hbraced {letter : Char} (hletter : letter ≠ ' ') (text : List Char) (texts : List (List Char)) :
      braceDigits letter (text ++ (texts.flatMap (' ' :: ·) ++ (overDeterminant m.detPower).toList)) =
        braceDigits letter text ++
          ((texts.map (braceDigits letter)).flatMap (' ' :: ·) ++ (overDeterminant m.detPower).toList) := by
    rw [braceDigits_flatMap (overDeterminant_begins m.detPower) hletter,
      braceDigits_of_no_underscore (underscore_notMem_overDeterminant m.detPower)]
  rw [toList_monomial places hsymbols, inMathMode, hdivided, hbraced (by decide), hbraced (by decide)]

/-- The text before the division has no names of the determinant and no quotients. -/
theorem monomial_parts (m : Monomial Float) : ∃ product : List Char, '/' ∉ product ∧ 'd' ∉ product ∧
    (monomial places m).toList = product ++ (overDeterminant m.detPower).toList := by
  obtain ⟨text, texts, htexts⟩ := List.exists_cons_of_ne_nil (factorTexts_ne_nil places symbol (m := m))
  have hfree {d : Char} (hblank : d ≠ ' ') (hd : ¬ IsPlain numberMarks d ∧ ¬ IsPlain symbolMarks d) :
      d ∉ text ++ texts.flatMap (' ' :: ·) := by
    have hfactors := notMem_factorTexts isPlain_symbol hd places m
    rw [htexts, List.forall_mem_cons] at hfactors
    simp only [List.mem_append, List.mem_flatMap, not_or, not_exists, not_and]
    exact ⟨hfactors.1, fun t ht => List.not_mem_cons_of_ne_of_not_mem hblank (hfactors.2 t ht)⟩
  refine ⟨text ++ texts.flatMap (' ' :: ·), hfree (by decide) (by simp [IsPlain, numberMarks, symbolMarks]),
    hfree (by decide) (by simp [IsPlain, numberMarks, symbolMarks]), ?_⟩
  rw [toList_monomial places htexts, List.append_assoc]

end Rewritten

section Meaning

/-- An exponent of several digits is in braces. -/
def exponent (q : ℕ) : String := if q < 10 then toString q else braced (toString q)

/-- A positive power of the determinant in math mode. -/
def power : ℕ → String
  | 1 => "\\det J"
  | q => "(\\det J)^" ++ exponent q

/-- Division by a power of the determinant in math mode. -/
def quotient (q : ℕ) : List Char := if q = 0 then [] else ' ' :: '/' :: ' ' :: (power q).toList

/-- After a product the text shows a division by the power, and no other one. -/
def ShowsPower (text : List Char) (q : ℕ) : Prop := ∃ product, '/' ∉ product ∧ text = product ++ quotient q

/-- The entry of the Jacobian or of its inverse that a text begins with. -/
def entryAt? : List Char → Option Symbol
  | 'J' :: '_' :: '\x7b' :: i :: j :: '\x7d' :: _ =>
    if i.isDigit && j.isDigit then some (.jacobian (i.toNat - 48) (j.toNat - 48)) else none
  | 'K' :: '_' :: '\x7b' :: i :: j :: '\x7d' :: _ =>
    if i.isDigit && j.isDigit then some (.inverseJacobian (i.toNat - 48) (j.toNat - 48)) else none
  | _ => none

/-- The entries of the Jacobian and of its inverse that a text shows. -/
def entries : List Char → List Symbol
  | [] => []
  | c :: cs => (entryAt? (c :: cs)).toList ++ entries cs

/-- Entries of the Jacobian and of its inverse. -/
def isEntry : Symbol → Bool
  | .jacobian _ _ => true
  | .inverseJacobian _ _ => true
  | _ => false

variable (places : ℕ) (m : Monomial Float)

theorem infix_append_of_notMem {d : Char} {word xs ys : List Char} (hd : d ∉ xs) (h : d :: word <:+: xs ++ ys) :
    d :: word <:+: ys := by
  induction xs with
  | nil => exact h
  | cons x xs ih =>
    rcases List.infix_cons_iff.mp h with hprefix | hinfix
    · exact absurd (List.cons_prefix_cons.mp hprefix).1 (List.ne_of_not_mem_cons hd)
    · exact ih (List.not_mem_of_not_mem_cons hd) hinfix

/-- The name that the determinant has in code is left in quotients by its third and higher powers only. -/
theorem determinant_shown : "detJ".toList <:+: (monomial places m).toList ↔ 3 ≤ m.detPower := by
  obtain ⟨product, -, hname, htext⟩ := monomial_parts places m
  have hquotient : "detJ".toList <:+: (monomial places m).toList ↔
      "detJ".toList <:+: (overDeterminant m.detPower).toList := by
    rw [htext]
    simp only [String.reduceToList]
    exact ⟨infix_append_of_notMem hname, fun h => h.trans (List.suffix_append product _).isInfix⟩
  rw [hquotient]
  match m.detPower with
  | 0 => simp [overDeterminant]
  | 1 => simp [overDeterminant, List.infix_cons_iff]
  | 2 => simp [overDeterminant, List.infix_cons_iff]
  | p + 3 =>
    rw [overDeterminant_named, namedDivision]
    exact iff_of_true ⟨['/', '('], (List.replicate (p + 2) "detJ".toList).flatMap (' ' :: ·) ++ [')'], by simp⟩
      (by omega)

theorem toDigits_two : Nat.toDigits 10 2 = ['2'] := by
  rw [Nat.toDigits_of_lt_base (by norm_num)]
  rfl

theorem power_inj {p q : ℕ} (hp : p = 1 ∨ p = 2) (hq : q ≠ 0) (h : power p = power q) : q = p := by
  obtain rfl | ⟨q, rfl⟩ : q = 1 ∨ ∃ r, q = r + 2 := by
    rcases q with _ | _ | q
    · exact absurd rfl hq
    · exact .inl rfl
    · exact .inr ⟨q, rfl⟩
  · rcases hp with rfl | rfl
    · rfl
    · simp [power, exponent, String.ext_iff] at h
  · rcases hp with rfl | rfl
    · simp [power, String.ext_iff] at h
    · have hexponent : exponent 2 = exponent (q + 2) := (String.append_right_inj _).mp h
      rw [exponent, exponent, if_pos (by norm_num)] at hexponent
      split_ifs at hexponent with hdigits
      · exact (Nat.repr_inj.mp hexponent).symm
      · simp [braced, String.ext_iff, toDigits_two] at hexponent

theorem quotient_inj {p q : ℕ} (hp : p ≤ 2) (h : quotient p = quotient q) : q = p := by
  unfold quotient at h
  split_ifs at h with hp₀ hq₀ hq₀
  · rw [hp₀, hq₀]
  · simp only [List.cons.injEq, true_and] at h
    exact power_inj (by omega) hq₀ (String.toList_inj.mp h)

/-- The division is determined by the text. -/
theorem append_quotient_inj {front front' : List Char} (hfront : '/' ∉ front) (hfront' : '/' ∉ front') {p q : ℕ}
    (h : front ++ quotient p = front' ++ quotient q) : quotient p = quotient q := by
  have hblank {xs : List Char} (hxs : '/' ∉ xs) : '/' ∉ xs ++ [' '] := by simp [hxs]
  unfold quotient at h ⊢
  split_ifs at h ⊢ with hp hq hq
  · rfl
  · rw [List.append_nil] at h
    simp [h] at hfront
  · rw [List.append_nil] at h
    simp [← h] at hfront'
  · rw [List.append_cons front, List.append_cons front'] at h
    rw [(append_delimiter_inj (hblank hfront) (hblank hfront') h).2]

theorem overDeterminant_quotient {p : ℕ} (h : p ≤ 2) : (overDeterminant p).toList = quotient p := by
  interval_cases p
  · rfl
  · simp [overDeterminant, quotient, power]
  · simp [overDeterminant, quotient, power, exponent, toDigits_two]

/-- A division by the power is shown for the powers up to the square only, and no other one is. -/
theorem power_shown (q : ℕ) : ShowsPower (monomial places m).toList q ↔ q = m.detPower ∧ q ≤ 2 := by
  obtain ⟨product, hslash, -, htext⟩ := monomial_parts places m
  constructor
  · rintro ⟨front, hfront, hshown⟩
    rw [htext] at hshown
    rcases Nat.lt_or_ge 2 m.detPower with hlarge | hsmall
    · obtain ⟨p, hp⟩ := Nat.exists_eq_add_of_le' hlarge
      have hnamed : (overDeterminant m.detPower).toList = '/' :: '(' :: (namedDivision ' ' (p + 3)).drop 2 := by
        rw [hp, overDeterminant_named]
        simp [namedDivision]
      rw [hnamed] at hshown
      unfold quotient at hshown
      split_ifs at hshown with hq
      · rw [List.append_nil] at hshown
        simp [← hshown] at hfront
      · -- A blank stands after the mark of a quotient, and a bracket in code.
        rw [List.append_cons front] at hshown
        have hrest := (append_delimiter_inj hslash (by simp [hfront]) hshown).2
        simp at hrest
    · rw [overDeterminant_quotient hsmall] at hshown
      have hq := quotient_inj hsmall (append_quotient_inj hslash hfront hshown)
      exact ⟨hq, hq ▸ hsmall⟩
  · rintro ⟨rfl, hpower⟩
    exact ⟨product, hslash, by rw [htext, overDeterminant_quotient hpower]⟩

/-- Whatever follows the text, it shows these entries and no other ones. -/
def Shows (text : List Char) (ss : List Symbol) : Prop := ∀ rest, entries (text ++ rest) = ss ++ entries rest

variable {places m} {text text' : List Char} {ss ss' : List Symbol}

theorem Shows.append (h : Shows text ss) (h' : Shows text' ss') : Shows (text ++ text') (ss ++ ss') := by
  intro rest
  rw [List.append_assoc, h, h', List.append_assoc]

theorem shows_none (hJ : 'J' ∉ text) (hK : 'K' ∉ text) : Shows text [] := by
  intro rest
  induction text with
  | nil => rfl
  | cons c cs ih =>
    have hnone : entryAt? (c :: (cs ++ rest)) = none := by
      unfold entryAt?
      split <;> simp_all
    rw [List.cons_append, entries, hnone]
    exact ih (List.not_mem_of_not_mem_cons hJ) (List.not_mem_of_not_mem_cons hK)

theorem shows_entry {c : Char} {cs : List Char} {s : Symbol} (hentry : ∀ rest, entryAt? (c :: (cs ++ rest)) = some s)
    (hcs : Shows cs []) : Shows (c :: cs) [s] := by
  intro rest
  rw [List.cons_append, entries, hentry, hcs]
  rfl

theorem digit_read {i : ℕ} (hi : i < 10) : Nat.toDigits 10 i = [i.digitChar] ∧ i.digitChar.isDigit = true ∧
    i.digitChar.toNat - 48 = i := by
  refine ⟨Nat.toDigits_of_lt_base hi, ?_⟩
  interval_cases i <;> exact ⟨rfl, rfl⟩

theorem shows_symbol {s : Symbol} (hs : s.ShortIndices) : Shows (symbol s).toList ([s].filter isEntry) := by
  have hJ := @notMem_digits 'J' rfl
  have hK := @notMem_digits 'K' rfl
  have hindices (i j : ℕ) : Shows ('_' :: '\x7b' :: ((toString i).toList ++ ((toString j).toList ++ ['\x7d']))) [] :=
    shows_none (by simp [hJ]) (by simp [hK])
  cases s with
  | jacobian i j | inverseJacobian i j =>
    obtain ⟨hi, hdigit, hread⟩ := digit_read hs.1
    obtain ⟨hj, hdigit', hread'⟩ := digit_read hs.2
    rw [toList_symbol]
    refine shows_entry (fun rest => ?_) (hindices i j)
    simp [entryAt?, hi, hj, hdigit, hdigit', hread, hread']
  | constant n => exact shows_none (by simp [toList_symbol, toList_name, hJ]) (by simp [toList_symbol, toList_name, hK])
  | coefficient n j =>
    exact shows_none (by simp [toList_symbol, toList_name, hJ]) (by simp [toList_symbol, toList_name, hK])

theorem shows_factors (ss : List Symbol) (hss : ∀ s ∈ ss, s.ShortIndices) :
    Shows ((ss.map fun s => (symbol s).toList).flatMap (' ' :: ·)) (ss.filter isEntry) := by
  have hblank : Shows [' '] [] := shows_none (by simp) (by simp)
  induction ss with
  | nil => exact fun _ => rfl
  | cons s ss ih =>
    rw [List.forall_mem_cons] at hss
    have hshown := (hblank.append (shows_symbol hss.1)).append (ih hss.2)
    rwa [List.nil_append, ← List.filter_append] at hshown

theorem entries_of_no_underscore (h : '_' ∉ text) : entries text = [] := by
  induction text with
  | nil => rfl
  | cons c cs ih =>
    have hnone : entryAt? (c :: cs) = none := by
      unfold entryAt?
      split <;> simp_all
    rw [entries, hnone, ih (List.not_mem_of_not_mem_cons h)]
    rfl

/-- The entries of the Jacobian and of its inverse are shown in their order, with both indices in the braces. -/
theorem entries_shown (hshort : ∀ s ∈ m.symbols, s.ShortIndices) :
    entries (monomial places m).toList = m.symbols.filter isEntry := by
  obtain ⟨text, texts, htexts⟩ := List.exists_cons_of_ne_nil (factorTexts_ne_nil places symbol (m := m))
  have hblank (cs : List Char) : entries (' ' :: cs) = entries cs := rfl
  have hnumber : Shows ((if m.hidesCoefficient then [] else
      [(Scientific.literal m.coefficient places).toList]).flatMap (' ' :: ·)) [] := by
    have hnone {letter : Char} (hletter : ¬ IsPlain numberMarks letter) (hne : letter ≠ ' ') :
        letter ∉ ' ' :: (Scientific.literal m.coefficient places).toList :=
      List.not_mem_cons_of_ne_of_not_mem hne (notMem_literal hletter _ _)
    split_ifs
    · exact fun _ => rfl
    · rw [List.flatMap_singleton]
      exact shows_none (hnone (by simp [IsPlain, numberMarks]) (by decide))
        (hnone (by simp [IsPlain, numberMarks]) (by decide))
  have hfactors : Shows ((factorTexts places symbol m).flatMap (' ' :: ·)) (m.symbols.filter isEntry) := by
    rw [factorTexts, List.flatMap_append]
    exact hnumber.append (shows_factors m.symbols hshort)
  rw [toList_monomial places htexts, ← hblank, ← List.append_assoc]
  have hshown := hfactors (overDeterminant m.detPower).toList
  rw [htexts, entries_of_no_underscore (underscore_notMem_overDeterminant _), List.append_nil] at hshown
  exact hshown

/-- A monomial in math mode is the rewritten text of its code. It shows the entries of the Jacobian and of its
inverse in their order, and the division by the power of the determinant where that is at most two. The name that
the determinant has in code is left in it exactly for the higher powers, and these are not shown. -/
theorem monomial_shown (places : ℕ) (m : Monomial Float) (hshort : ∀ s ∈ m.symbols, s.ShortIndices) :
    (monomial places m).toList = inMathMode (m.expr.text places).toList ∧
      entries (monomial places m).toList = m.symbols.filter isEntry ∧
      ("detJ".toList <:+: (monomial places m).toList ↔ 3 ≤ m.detPower) ∧
      ∀ q, ShowsPower (monomial places m).toList q ↔ q = m.detPower ∧ q ≤ 2 :=
  ⟨toList_monomial_eq places m, entries_shown hshort, determinant_shown places m, power_shown places m⟩

/-- A number, an entry of each matrix, a dof and the square of the determinant. -/
theorem monomial_shown_square :
    monomial 1 ⟨-2, 2, [.jacobian 0 1, .inverseJacobian 2 1, .coefficient 0 3]⟩ =
      "-2.0e+00 J_\x7b01\x7d K_\x7b21\x7d w[0][3] / (\\det J)^2" ∧
    entries (monomial 1 ⟨-2, 2, [.jacobian 0 1, .inverseJacobian 2 1, .coefficient 0 3]⟩).toList =
      [.jacobian 0 1, .inverseJacobian 2 1] ∧
    ¬ "detJ".toList <:+: (monomial 1 ⟨-2, 2, [.jacobian 0 1, .inverseJacobian 2 1, .coefficient 0 3]⟩).toList ∧
    ShowsPower (monomial 1 ⟨-2, 2, [.jacobian 0 1, .inverseJacobian 2 1, .coefficient 0 3]⟩).toList 2 := by
  obtain ⟨-, hentries, hname, hpower⟩ :=
    monomial_shown 1 ⟨-2, 2, [.jacobian 0 1, .inverseJacobian 2 1, .coefficient 0 3]⟩ (by simp [Symbol.ShortIndices])
  exact ⟨by decide +kernel, hentries, by rw [hname]; decide, (hpower 2).mpr ⟨rfl, le_rfl⟩⟩

/-- The third power of the determinant keeps its name from the code. -/
theorem cube_not_shown :
    monomial 3 ⟨1, 3, [.jacobian 0 0, .jacobian 0 0, .jacobian 0 0]⟩ =
      "J_\x7b00\x7d J_\x7b00\x7d J_\x7b00\x7d/(detJ detJ detJ)" ∧
    "detJ".toList <:+: (monomial 3 ⟨1, 3, [.jacobian 0 0, .jacobian 0 0, .jacobian 0 0]⟩).toList ∧
    ¬ ShowsPower (monomial 3 ⟨1, 3, [.jacobian 0 0, .jacobian 0 0, .jacobian 0 0]⟩).toList 3 := by
  refine ⟨by decide +kernel, (determinant_shown 3 _).mpr le_rfl, fun hshown => ?_⟩
  have hle := ((power_shown 3 ⟨1, 3, [.jacobian 0 0, .jacobian 0 0, .jacobian 0 0]⟩ 3).mp hshown).2
  omega

end Meaning
end Report
end Variational
