import Variational.Proofs.AdjacentNumbers
import Variational.Proofs.FloatSigns

/-! What linear combinations denote in generated code. A separator stands for a sum or a difference, except where a term
with a positive coefficient follows a term that is left out, or where the terms are separated by blanks because the last
coefficient is negative. There a positive term has no operator in front of it, and the text is no expression. -/
namespace Variational
open Code Grammar

namespace Grammar

variable {K : Type} [Field K] {env : String × List ℕ → K} {cs ds : List Char} {x y : K}

theorem Derives.ne_nil {l : Level} {ts : List Token} {t : Tree} (h : Derives l ts t) : ts ≠ [] := by
  induction h with
  | operand _ ih | factor _ ih | product _ ih => exact ih
  | _ => simp

/-- A product may stand on the right of a product: it groups to the left. -/
theorem Derives.times_product (env : String × List ℕ → K) {ts us : List Token} {t u : Tree} (ht : Derives .product ts t)
    (hu : Derives .product us u) :
    ∃ v, Derives .product (ts ++ .mark '*' :: us) v ∧ v.value env = t.value env * u.value env := by
  generalize hl : Level.product = l at hu
  induction hu with
  | factor hu =>
    have hmul : Op.mul.strength = 1 := rfl
    exact ⟨_, .times hmul ht hu, rfl⟩
  | @times op us us' u u' hop _ hu' ih _ =>
    obtain ⟨v, hv, hvalue⟩ := ih rfl
    refine ⟨_, by simpa using hv.times hop hu', ?_⟩
    rw [Tree.value, Tree.value, hvalue]
    cases op with
    | add | sub => cases hop
    | mul => exact mul_assoc _ _ _
    | div => exact mul_div_assoc _ _ _
  | _ => cases hl

/-- No text with tokens has a brace. -/
theorem brace_notMem {word cs : List Char} {ts : List Token} (h : scan word cs = some ts) : '\x7b' ∉ cs := by
  induction cs generalizing word ts with
  | nil => exact List.not_mem_nil
  | cons c cs ih =>
    rw [scan] at h
    rw [List.mem_cons, not_or]
    split_ifs at h with hcontinues
    · refine ⟨?_, ih h⟩
      rintro rfl
      simp [continues, isWordChar, Char.isAlphanum] at hcontinues
    · simp only [Option.bind_eq_bind, Option.bind_eq_some_iff] at h
      obtain ⟨_, -, _, hmark, _, hafter, -⟩ := h
      refine ⟨?_, ih hafter⟩
      rintro rfl
      simp [mark?, marks] at hmark

theorem Denotes.unique {text : String} (h : Denotes env text x) (h' : Denotes env text y) : x = y := by
  obtain ⟨ts, t, htokens, -, hunique, rfl⟩ := h
  obtain ⟨us, u, htokens', hderives, -, rfl⟩ := h'
  obtain rfl := Option.some.inj (htokens.symm.trans htokens')
  rw [hunique u hderives]

namespace Phrase

theorem denotes_iff (h : Phrase env .sum cs x) : Denotes env (String.ofList cs) y ↔ y = x := by
  have hx : Denotes env (String.ofList cs) x := denotes (by rwa [String.toList_ofList])
  exact ⟨fun hy => hy.unique hx, by rintro rfl; exact hx⟩

theorem trailing_blank {l : Level} (h : Phrase env l cs x) : Phrase env l (cs ++ [' ']) x := by
  obtain ⟨ts, t, hlexes, hderives, hvalue⟩ := h
  have hblank := hlexes.append lexes_nil.blank fun rest => delimited_cons rfl (by decide) rest
  exact ⟨ts, t, by simpa using hblank, hderives, hvalue⟩

/-- A star and a phrase are not read together. -/
theorem joins_star {l : Level} (h : Phrase env l ds y) (rest : List Char) :
    (ds ++ rest).head?.any (joins '*') = false := by
  obtain ⟨ts, t, hlexes, hderives, -⟩ := h
  have hscan := hlexes.scan_eq
  cases ds with
  | nil =>
    obtain rfl : [] = ts := Option.some.inj hscan
    exact absurd rfl hderives.ne_nil
  | cons d ds =>
    change (d == '=') = false
    rw [beq_eq_false_iff_ne]
    rintro rfl
    simp [scan, continues, isWordChar, Char.isAlphanum, mark?, marks] at hscan

/-- A product of products, with or without blanks around the star. -/
theorem times_product (h : Phrase env .product cs x) (h' : Phrase env .product ds y) :
    Phrase env .product (cs ++ '*' :: ds) (x * y) ∧ Phrase env .product (cs ++ ' ' :: '*' :: ' ' :: ds) (x * y) := by
  have hjoins := h'.joins_star
  obtain ⟨ts, t, hlexes, hderives, rfl⟩ := h
  obtain ⟨us, u, hlexes', hderives', rfl⟩ := h'
  obtain ⟨v, hv, hvalue⟩ := hderives.times_product env hderives'
  have htight : Lexes ('*' :: ds) (.mark '*' :: us) := hlexes'.mark (by decide) hjoins
  have hwide : Lexes (' ' :: '*' :: ' ' :: ds) (.mark '*' :: us) :=
    (hlexes'.blank.mark (by decide) fun _ => rfl).blank
  exact ⟨⟨_, v, hlexes.append htight fun rest => delimited_cons rfl (by decide) _, hv, hvalue⟩,
    ⟨_, v, hlexes.append hwide fun rest => delimited_cons rfl (by decide) _, hv, hvalue⟩⟩

/-- An operation that binds loosely, in front of a word or a parenthesis. -/
theorem plus_opens (op : Op) (hop : op.strength = 0) (h : Phrase env .sum cs x) (h' : Phrase env .product ds y)
    (hopens : Opens ds) : Phrase env .sum (cs ++ op.mark :: ds) (op.value x y) := by
  obtain ⟨ts, t, hlexes, hderives, rfl⟩ := h
  obtain ⟨us, u, hlexes', hderives', rfl⟩ := h'
  have hmark := hlexes'.mark (Op.mark_mem op) (hopens.joins _)
  exact ⟨_, _, hlexes.append hmark fun rest => Op.delimited_mark op _, .plus hop hderives hderives', rfl⟩

/-- A number directly after a phrase. -/
theorem not_denotes_append (h : Phrase env .sum cs x) {d : Char} (hd : d.isDigit = true) (more : List Char) (y : K) :
    ¬ Denotes env (String.ofList (cs ++ d :: '.' :: more)) y := by
  obtain ⟨ts, t, hlexes, hderives, -⟩ := h
  exact Grammar.not_denotes_append env hlexes.scan_eq hderives hd more y

end Phrase
end Grammar

namespace Scientific
open Code

variable {K : Type} [Field K] (env : String × List ℕ → K) {x : Float} (places : ℕ)

/-- Only the sign of a number that is written tells its literal from that of its absolute value. -/
theorem literal_sign (hfinite : (Binary.ofFloat x).isFinite = true) (hwritten : Piece.isZero x = false) :
    (literal x places).toList =
        (if Scalar.below x 0 then ['-'] else []) ++ (literal (Scalar.abs x) places).toList ∧
      printed x places = (if Scalar.below x 0 then -1 else 1) * printed (Scalar.abs x) places := by
  cases hx : Binary.ofFloat x with
  | nan | infinite => simp [hx, Binary.isFinite] at hfinite
  | finite negative m q =>
    have hpos : m ≠ 0 := by
      rintro rfl
      rw [isZero_of_zero hx] at hwritten
      cases hwritten
    have habs : Binary.ofFloat (Scalar.abs x) = .finite false m q := ofFloat_abs hx
    have hbelow := below_zero_iff hx
    cases negative <;>
      simp [hbelow, hpos, literal, Style.format, Style.chars, printed, Binary.decimal, hx, habs]

/-- The literal of an absolute value begins with a digit and a point. -/
theorem literal_abs (hfinite : (Binary.ofFloat x).isFinite = true) (hplaces : places ≠ 0) :
    Phrase env .product (literal (Scalar.abs x) places).toList (printed (Scalar.abs x) places : ℚ) ∧
      ∃ d ds, d.isDigit = true ∧ (literal (Scalar.abs x) places).toList = d :: '.' :: ds := by
  cases hx : Binary.ofFloat x with
  | nan | infinite => simp [hx, Binary.isFinite] at hfinite
  | finite negative m q =>
    have habs : Binary.ofFloat (Scalar.abs x) = .finite false m q := ofFloat_abs hx
    have hden : 0 < Nat.pow 2 (-q).toNat := Nat.pow_pos Nat.two_pos
    set r := round places (m * Nat.pow 2 q.toNat) (Nat.pow 2 (-q).toNat)
    obtain ⟨d, ds, hdigits, hlength, -, htext⟩ := rounded_eq (round_mantissa_lt places (m * Nat.pow 2 q.toNat) hden)
    have hne : ds ≠ [] := by
      rintro rfl
      exact hplaces hlength.symm
    refine ⟨(phrase_literal env places (by simp [habs, Binary.isFinite])).product, d,
      ds ++ exponent (r.exponent < 0) (padded 2 r.exponent.natAbs), hdigits d List.mem_cons_self, ?_⟩
    rw [literal, Style.format, String.toList_ofList, habs, Style.chars, if_neg Bool.false_ne_true,
      List.nil_append, htext, pointed, if_neg hne]
    rfl

end Scientific

namespace Code.Scaled
open Scientific (literal printed)

variable {K : Type} [Field K] (env : String × List ℕ → K)

/-- The template is a mark for the coefficient alone, or a product of it with an operand, which has the given value. -/
def Multiplies (t : Scaled Float) (y : K) : Prop :=
  (t.template = "\x7b\x7d" ∧ y = 1) ∨
    ∃ operand, (t.template = "\x7b\x7d * " ++ operand ∨ t.template = "\x7b\x7d*" ++ operand) ∧
      Phrase env .product operand.toList y

/-- The term is left out. -/
def vanishes (t : Scaled Float) : Bool := Piece.isZero t.coefficient

def isNegative (t : Scaled Float) : Bool := Scalar.below t.coefficient 0

/-- The text of a term with its own sign. -/
def signed (t : Scaled Float) : List Char := (t.fill t.coefficient).toList

/-- The text of a term without its sign. -/
def magnitude (t : Scaled Float) : List Char := (t.fill (Scalar.abs t.coefficient)).toList

section Terms

variable {env} {t : Scaled Float} {x y : K}

/-- What stands behind the coefficient multiplies it. -/
theorem Multiplies.fill (h : Multiplies env t y) : ∃ rest,
    (∀ c, (t.fill c).toList = (literal c fullPlaces).toList ++ rest) ∧
    ∀ cs x, Phrase env .product cs x → Phrase env .product (cs ++ rest) (x * y) := by
  have hfill (rest : String) (hrest : '\x7b' ∉ rest.toList) (ht : t.template = "\x7b\x7d" ++ rest) (c : Float) :
      (t.fill c).toList = (literal c fullPlaces).toList ++ rest.toList := by
    rw [Scaled.fill, Substitution.replace, String.toList_ofList, ht, String.toList_append]
    exact Substitution.substitute_start hrest
  obtain ⟨ht, rfl⟩ | ⟨operand, ht, hphrase⟩ := h
  · exact ⟨[], fun c => hfill "" List.not_mem_nil ht c, fun cs x hx => by simpa using hx⟩
  have hbrace : '\x7b' ∉ operand.toList := by
    obtain ⟨ts, u, hlexes, -⟩ := hphrase
    exact brace_notMem hlexes.scan_eq
  obtain ht | ht := ht
  · have htemplate : t.template = "\x7b\x7d" ++ (" * " ++ operand) := ht
    refine ⟨_, hfill _ (by simp [hbrace]) htemplate, fun cs x hx => ?_⟩
    simpa using (hx.times_product hphrase).2
  · have htemplate : t.template = "\x7b\x7d" ++ ("*" ++ operand) := ht
    refine ⟨_, hfill _ (by simp [hbrace]) htemplate, fun cs x hx => ?_⟩
    simpa using (hx.times_product hphrase).1

variable (env t x) in
/-- How a term of the given value is written. -/
structure Written : Prop where
  signed : Phrase env .product t.signed x
  magnitude : Phrase env .product t.magnitude (if t.isNegative then -x else x)
  sign : t.signed = (if t.isNegative then ['-'] else []) ++ t.magnitude
  /-- The text begins with a number with a point. -/
  digit : ∃ d ds, d.isDigit = true ∧ t.magnitude = d :: '.' :: ds

theorem Written.opens (h : Written env t x) : Opens t.magnitude := by
  obtain ⟨d, ds, hd, htext⟩ := h.digit
  exact ⟨d, by rw [htext]; rfl, .inl (isWordChar_of_isDigit hd)⟩

theorem Multiplies.written (h : Multiplies env t y)
    (hfinite : (Scientific.Binary.ofFloat t.coefficient).isFinite = true)
    (hwritten : t.vanishes = false) : Written env t (printed t.coefficient fullPlaces * y) := by
  obtain ⟨rest, hfill, htimes⟩ := h.fill
  obtain ⟨htext, hvalue⟩ := Scientific.literal_sign fullPlaces hfinite hwritten
  obtain ⟨hphrase, d, ds, hd, hdigit⟩ := Scientific.literal_abs env fullPlaces hfinite (by decide)
  refine ⟨?_, ?_, ?_, d, ds ++ rest, hd, ?_⟩
  · rw [signed, hfill]
    exact htimes _ _ (phrase_literal env fullPlaces hfinite).product
  · rw [magnitude, hfill]
    have hmagnitude := htimes _ _ hphrase
    rw [hvalue]
    unfold isNegative
    split_ifs <;> simpa using hmagnitude
  · rw [signed, magnitude, hfill, hfill, htext, List.append_assoc]
    rfl
  · rw [magnitude, hfill, hdigit]
    rfl

end Terms

/-- The sum of the terms that are not left out, each with the decimal that its coefficient is printed as. -/
def total (value : Scaled Float → K) (ts : List (Scaled Float)) : K :=
  ((ts.filter fun t => !t.vanishes).map fun t => (printed t.coefficient fullPlaces : K) * value t).sum

/-- A term has an operator in front of it, or is not written. -/
def Separated (previous t : Scaled Float) : Prop := previous.vanishes = true → t.vanishes = true ∨ t.isNegative = true

section Runs

variable {env} {value : Scaled Float → K} {t u : Scaled Float} {ts us : List (Scaled Float)} {cs : List Char} {x : K}

/-- The text of a piece. -/
def text (p : Piece Float (Scaled Float)) : List Char := p.separator.toList ++ (p.term.fill p.number).toList

theorem toList_concat (ps : List (Piece Float (Scaled Float))) : (concat ps).toList = ps.flatMap text := by
  rw [concat, String.toList_join, List.flatMap_map]
  exact List.flatMap_congr fun p _ => String.toList_append

/-- What a folded term adds to the text. -/
def step (previous t : Scaled Float) : List Char :=
  if t.vanishes then []
  else if t.isNegative then '-' :: t.magnitude
  else if previous.vanishes then t.magnitude
  else '+' :: t.magnitude

/-- The text of folded terms after another term. -/
def run : Scaled Float → List (Scaled Float) → List Char
  | _, [] => []
  | previous, t :: ts => step previous t ++ run t ts

theorem text_foldedAfter (t u : Scaled Float) :
    ((Piece.foldedAfter? coefficient t u).map text).getD [] = step t u := by
  unfold Piece.foldedAfter? step vanishes isNegative
  dsimp only
  split_ifs <;> simp [text, magnitude]

theorem folded_cons (t : Scaled Float) (ts : List (Scaled Float)) :
    (folded (t :: ts)).toList = (if t.vanishes then [] else t.signed) ++ run t ts := by
  have hrun : ((List.zipWith (Piece.foldedAfter? coefficient) (t :: ts) ts).filterMap id).flatMap text = run t ts := by
    induction ts generalizing t with
    | nil => rfl
    | cons u us ih =>
      rw [List.zipWith_cons_cons, run, ← text_foldedAfter, ← ih u]
      cases hpiece : Piece.foldedAfter? coefficient t u with
      | none => rfl
      | some p => rfl
  rw [folded, toList_concat, Piece.folded, List.flatMap_append, hrun]
  unfold vanishes
  split_ifs <;> simp [text, signed]

/-- The first term that is written has its own sign, also where terms in front of it are left out. -/
theorem folded_eq (hdrop : ts.dropWhile vanishes = u :: us) (hu : Written env u x) :
    (folded ts).toList = u.signed ++ run u us := by
  have hopening {t : Scaled Float} {ts : List (Scaled Float)} (ht : t.vanishes = true)
      (hdrop : ts.dropWhile vanishes = u :: us) : run t ts = u.signed ++ run u us := by
    induction ts generalizing t with
    | nil => cases hdrop
    | cons v vs ih =>
      by_cases hv : v.vanishes = true
      · rw [run, step, if_pos hv, List.nil_append]
        exact ih hv (by simpa [hv] using hdrop)
      · obtain ⟨rfl, rfl⟩ : v = u ∧ vs = us := by simpa [hv] using hdrop
        rw [run, step, if_neg hv, if_pos ht, hu.sign]
        split_ifs <;> simp
  cases ts with
  | nil => cases hdrop
  | cons t ts =>
    rw [folded_cons]
    by_cases ht : t.vanishes = true
    · rw [if_pos ht, List.nil_append]
      exact hopening ht (by simpa [ht] using hdrop)
    · obtain ⟨rfl, rfl⟩ : t = u ∧ ts = us := by simpa [ht] using hdrop
      rw [if_neg ht]

/-- Folded terms go on a sum as long as each has an operator in front of it. -/
theorem denotes_run
    (hts : ∀ t ∈ ts, t.vanishes = false → Written env t (printed t.coefficient fullPlaces * value t))
    (h : Phrase env .sum cs x) (y : K) : Denotes env (String.ofList (cs ++ run t ts)) y ↔
      (t :: ts).IsChain Separated ∧ y = x + total value ts := by
  induction ts generalizing t cs x with
  | nil => simp [run, total, h.denotes_iff]
  | cons u us ih =>
    rw [List.forall_mem_cons] at hts
    rw [run, List.isChain_cons_cons]
    by_cases hu : u.vanishes = true
    · have htotal : total value (u :: us) = total value us := by simp [total, hu]
      have hseparated : Separated t u := fun _ => .inl hu
      rw [step, if_pos hu, List.nil_append, ih hts.2 h, htotal]
      simp [hseparated]
    · have htotal : total value (u :: us) = printed u.coefficient fullPlaces * value u + total value us := by
        simp [total, hu]
      have hwritten := hts.1 (by simpa using hu)
      have hmagnitude := hwritten.magnitude
      rw [step, if_neg hu, htotal, ← List.append_assoc, ← add_assoc]
      by_cases hneg : u.isNegative = true
      · have hseparated : Separated t u := fun _ => .inr hneg
        rw [if_pos hneg] at hmagnitude ⊢
        have hnext := h.plus_opens .sub rfl hmagnitude hwritten.opens
        have hiff := ih (t := u) hts.2 hnext
        simpa [hseparated, Op.value, Op.mark] using hiff
      rw [if_neg hneg] at hmagnitude ⊢
      by_cases ht : t.vanishes = true
      · obtain ⟨d, ds, hd, hdigit⟩ := hwritten.digit
        have hseparated : ¬ Separated t u := fun hseparated => (hseparated ht).elim hu hneg
        rw [if_pos ht, hdigit]
        have hnot := h.not_denotes_append hd (ds ++ run u us) y
        simpa [hseparated] using hnot
      · have hseparated : Separated t u := fun hvanishes => absurd hvanishes ht
        rw [if_neg ht]
        have hnext := h.plus_opens .add rfl hmagnitude hwritten.opens
        have hiff := ih (t := u) hts.2 hnext
        simpa [hseparated, Op.value, Op.mark] using hiff

/-- The separator depends on the sign of the last coefficient, also where that one is left out. -/
theorem joined_eq (hfilter : (ts.filter fun t => !t.vanishes) = u :: us) : (joined ts).toList = u.signed ++
    us.flatMap fun t => (if ts.getLast?.any isNegative then [' '] else [' ', '+', ' ']) ++ t.signed := by
  change (ts.filter fun t => !Piece.isZero t.coefficient) = u :: us at hfilter
  rw [joined, toList_concat, Piece.joined, hfilter, List.flatMap_cons, List.flatMap_map]
  cases ts.getLast? with
  | none => simp [text, signed]
  | some t =>
    have hsign : Scalar.below t.coefficient 0 = t.isNegative := rfl
    cases hneg : t.isNegative <;> simp [text, signed, hsign, hneg]

/-- Terms joined by a plus go on a sum. -/
theorem phrase_added (hts : ∀ t ∈ ts, Written env t (printed t.coefficient fullPlaces * value t))
    (h : Phrase env .sum cs x) : Phrase env .sum (cs ++ ts.flatMap fun t => [' ', '+', ' '] ++ t.signed)
      (x + (ts.map fun t => (printed t.coefficient fullPlaces : K) * value t).sum) := by
  induction ts generalizing cs x with
  | nil => simpa using h
  | cons t ts ih =>
    rw [List.forall_mem_cons] at hts
    have hnext := ih hts.2 (h.plus .add rfl hts.1.signed)
    simpa [Op.value, Op.mark, add_assoc] using hnext

/-- Terms joined by a blank go on a sum as long as they have signs. -/
theorem denotes_signed (hts : ∀ t ∈ ts, Written env t (printed t.coefficient fullPlaces * value t))
    (h : Phrase env .sum cs x) (y : K) :
    Denotes env (String.ofList (cs ++ ts.flatMap fun t => [' '] ++ t.signed)) y ↔
      (∀ t ∈ ts, t.isNegative = true) ∧
        y = x + (ts.map fun t => (printed t.coefficient fullPlaces : K) * value t).sum := by
  induction ts generalizing cs x with
  | nil => simp [h.denotes_iff]
  | cons t ts ih =>
    rw [List.forall_mem_cons] at hts
    have hwritten := hts.1
    have hmagnitude := hwritten.magnitude
    rw [List.flatMap_cons, hwritten.sign, List.forall_mem_cons]
    by_cases hneg : t.isNegative = true
    · rw [if_pos hneg] at hmagnitude ⊢
      have hiff := ih hts.2 (h.trailing_blank.plus_opens .sub rfl hmagnitude hwritten.opens)
      simpa [hneg, Op.value, Op.mark, add_assoc] using hiff
    · obtain ⟨d, ds, hd, hdigit⟩ := hwritten.digit
      have hnot := h.trailing_blank.not_denotes_append hd (ds ++ ts.flatMap fun t => [' '] ++ t.signed) y
      rw [if_neg hneg, hdigit]
      simpa [hneg] using hnot

theorem total_dropWhile (value : Scaled Float → K) (ts : List (Scaled Float)) :
    total value (ts.dropWhile vanishes) = total value ts := by
  induction ts with
  | nil => rfl
  | cons t ts ih =>
    by_cases ht : t.vanishes = true
    · rw [List.dropWhile_cons_of_pos ht, ih]
      simp [total, ht]
    · rw [List.dropWhile_cons_of_neg ht]

end Runs

/-- After the first term that is written, none with a positive coefficient directly follows one that is left out. -/
def Connected (ts : List (Scaled Float)) : Prop := (ts.dropWhile vanishes).IsChain Separated

/-- If the last coefficient is negative, then so are those of all terms that are written, but for the first one. -/
def Uniform (ts : List (Scaled Float)) : Prop :=
  ts.getLast?.any isNegative = true → ∀ t ∈ (ts.filter fun t => !t.vanishes).tail, t.isNegative = true

section Combinations

variable {env} {value : Scaled Float → K} {ts : List (Scaled Float)}
  (hts : ∀ t ∈ ts, t.vanishes = false → Written env t (printed t.coefficient fullPlaces * value t))
  (hsome : ∃ t ∈ ts, t.vanishes = false)
include hts hsome

theorem denotes_folded_iff (y : K) : Denotes env (folded ts) y ↔ Connected ts ∧ y = total value ts := by
  obtain ⟨v, hv, hwritten⟩ := hsome
  obtain ⟨u, us, hdrop⟩ : ∃ u us, ts.dropWhile vanishes = u :: us := by
    refine List.exists_cons_of_ne_nil fun hnil => ?_
    rw [List.dropWhile_eq_nil_iff.mp hnil v hv] at hwritten
    cases hwritten
  have hu : u.vanishes = false := by
    have hhead := List.head_dropWhile_not vanishes (l := ts) (by simp [hdrop])
    simpa [hdrop] using hhead
  have hsub : ∀ t ∈ u :: us, t ∈ ts := fun t ht => (List.dropWhile_sublist vanishes).subset (hdrop ▸ ht)
  have hfirst := hts u (hsub u List.mem_cons_self) hu
  have hrest (t : Scaled Float) (ht : t ∈ us) := hts t (hsub t (List.mem_cons_of_mem u ht))
  have htotal : total value ts = printed u.coefficient fullPlaces * value u + total value us := by
    rw [← total_dropWhile, hdrop]
    simp [total, hu]
  rw [← String.ofList_toList (s := folded ts), folded_eq hdrop hfirst, denotes_run hrest hfirst.signed.sum, htotal,
    Connected, hdrop]

theorem denotes_joined_iff (y : K) : Denotes env (joined ts) y ↔ Uniform ts ∧ y = total value ts := by
  obtain ⟨v, hv, hwritten⟩ := hsome
  obtain ⟨u, us, hfilter⟩ : ∃ u us, (ts.filter fun t => !t.vanishes) = u :: us :=
    List.exists_cons_of_ne_nil (List.ne_nil_of_mem (List.mem_filter.mpr ⟨hv, by simp [hwritten]⟩))
  have hmem : ∀ t ∈ u :: us, Written env t (printed t.coefficient fullPlaces * value t) := by
    intro t ht
    obtain ⟨ht, hvanishes⟩ := List.mem_filter.mp (hfilter ▸ ht)
    exact hts t ht (by simpa using hvanishes)
  rw [List.forall_mem_cons] at hmem
  have htotal : total value ts = printed u.coefficient fullPlaces * value u +
      (us.map fun t => (printed t.coefficient fullPlaces : K) * value t).sum := by
    rw [total, hfilter, List.map_cons, List.sum_cons]
  rw [← String.ofList_toList (s := joined ts), joined_eq hfilter, htotal, Uniform, hfilter, List.tail_cons]
  by_cases hlast : ts.getLast?.any isNegative = true
  · rw [if_pos hlast, denotes_signed hmem.2 hmem.1.signed.sum]
    simp [hlast]
  · rw [if_neg hlast, (phrase_added hmem.2 hmem.1.signed.sum).denotes_iff]
    simp [hlast]

end Combinations

/-- A linear combination denotes the sum of its terms, and that only, exactly if no operator is missing. -/
theorem combination_denotes (value : Scaled Float → K) (ts : List (Scaled Float))
    (hterms : ∀ t ∈ ts, Multiplies env t (value t))
    (hfinite : ∀ t ∈ ts, (Scientific.Binary.ofFloat t.coefficient).isFinite = true)
    (hsome : ∃ t ∈ ts, t.vanishes = false) (x : K) :
    (Denotes env (folded ts) x ↔ Connected ts ∧ x = total value ts) ∧
      (Denotes env (joined ts) x ↔ Uniform ts ∧ x = total value ts) := by
  have hwritten (t : Scaled Float) (ht : t ∈ ts) (hvanishes : t.vanishes = false) :=
    (hterms t ht).written (hfinite t ht) hvanishes
  exact ⟨denotes_folded_iff hwritten hsome x, denotes_joined_iff hwritten hsome x⟩

/-- A term is left out in front of the first one and in front of a negative one. -/
theorem combination_denotes_negative :
    folded [⟨0, "\x7b\x7d*x"⟩, ⟨2, "\x7b\x7d * x"⟩, ⟨0, "\x7b\x7d*x"⟩, ⟨-3, "\x7b\x7d*x"⟩] =
      "2.000000000000000e+00 * x-3.000000000000000e+00*x" ∧
    joined [⟨0, "\x7b\x7d*x"⟩, ⟨2, "\x7b\x7d * x"⟩, ⟨0, "\x7b\x7d*x"⟩, ⟨-3, "\x7b\x7d*x"⟩] =
      "2.000000000000000e+00 * x -3.000000000000000e+00*x" ∧
    Denotes (fun _ => (5 : ℚ)) "2.000000000000000e+00 * x-3.000000000000000e+00*x" (-5) ∧
    Denotes (fun _ => (5 : ℚ)) "2.000000000000000e+00 * x -3.000000000000000e+00*x" (-5) := by
  have hname : Phrase (fun _ => (5 : ℚ)) .product "x".toList 5 :=
    (phrase_place (fun _ => (5 : ℚ)) (s := "x") (by simp) (by simp [isWordChar]) rfl []).factor.product
  have htight : Multiplies (fun _ => (5 : ℚ)) ⟨0, "\x7b\x7d*x"⟩ 5 := .inr ⟨"x", .inr rfl, hname⟩
  have htwo : printed 2 fullPlaces = 2 := by decide +kernel
  have hthree : printed (-3) fullPlaces = -3 := by decide +kernel
  have hfolded : folded [⟨0, "\x7b\x7d*x"⟩, ⟨2, "\x7b\x7d * x"⟩, ⟨0, "\x7b\x7d*x"⟩, ⟨-3, "\x7b\x7d*x"⟩] =
      "2.000000000000000e+00 * x-3.000000000000000e+00*x" := by decide +kernel
  have hjoined : joined [⟨0, "\x7b\x7d*x"⟩, ⟨2, "\x7b\x7d * x"⟩, ⟨0, "\x7b\x7d*x"⟩, ⟨-3, "\x7b\x7d*x"⟩] =
      "2.000000000000000e+00 * x -3.000000000000000e+00*x" := by decide +kernel
  obtain ⟨hfold, hjoin⟩ := combination_denotes (fun _ => (5 : ℚ)) (fun _ => 5)
    [⟨0, "\x7b\x7d*x"⟩, ⟨2, "\x7b\x7d * x"⟩, ⟨0, "\x7b\x7d*x"⟩, ⟨-3, "\x7b\x7d*x"⟩]
    (by
      simp only [List.forall_mem_cons]
      exact ⟨htight, .inr ⟨"x", .inl rfl, hname⟩, htight, .inr ⟨"x", .inr rfl, hname⟩, by simp⟩)
    (by decide) ⟨_, List.mem_cons_of_mem _ List.mem_cons_self, by decide⟩ (-5)
  have hzero (s : String) : (⟨0, s⟩ : Scaled Float).vanishes = true := (by decide : Piece.isZero (0 : Float) = true)
  have hfirst (s : String) : (⟨2, s⟩ : Scaled Float).vanishes = false := (by decide : Piece.isZero (2 : Float) = false)
  have hlast (s : String) : (⟨-3, s⟩ : Scaled Float).vanishes = false := (by decide : Piece.isZero (-3 : Float) = false)
  have hsign (s : String) : (⟨-3, s⟩ : Scaled Float).isNegative = true :=
    (by decide : Scalar.below (-3 : Float) 0 = true)
  rw [hfolded] at hfold
  rw [hjoined] at hjoin
  refine ⟨hfolded, hjoined, hfold.mpr ⟨?_, ?_⟩, hjoin.mpr ⟨?_, ?_⟩⟩
  · simp [Connected, Separated, List.dropWhile, hzero, hfirst, hlast, hsign]
  · norm_num [total, hzero, hfirst, hlast, htwo, hthree]
  · simp [Uniform, hzero, hfirst, hlast, hsign]
  · norm_num [total, hzero, hfirst, hlast, htwo, hthree]

/-- A positive term behind one that is left out, and a positive one where the last one is negative. -/
theorem operator_missing :
    folded [⟨1, "\x7b\x7d"⟩, ⟨0, "\x7b\x7d*x"⟩, ⟨2, "\x7b\x7d*y"⟩] = "1.000000000000000e+002.000000000000000e+00*y" ∧
    joined [⟨1, "\x7b\x7d"⟩, ⟨2, "\x7b\x7d*x"⟩, ⟨-3, "\x7b\x7d*y"⟩] =
      "1.000000000000000e+00 2.000000000000000e+00*x -3.000000000000000e+00*y" ∧
    ∀ (env : String × List ℕ → ℚ) (x : ℚ), ¬ Denotes env "1.000000000000000e+002.000000000000000e+00*y" x ∧
      ¬ Denotes env "1.000000000000000e+00 2.000000000000000e+00*x -3.000000000000000e+00*y" x := by
  have hnumber : scan [] "1.000000000000000e+00 ".toList = some [.number 1] := by decide +kernel
  refine ⟨by decide +kernel, by decide +kernel, fun env x => ⟨?_, ?_⟩⟩
  · have hnone : tokens? "1.000000000000000e+002.000000000000000e+00*y" = none := by decide +kernel
    rintro ⟨ts, t, htokens, -⟩
    rw [hnone] at htokens
    cases htokens
  · exact not_denotes_append env hnumber (.product (.factor (.operand (.number 1)))) (d := '2') rfl
      "000000000000000e+00*x -3.000000000000000e+00*y".toList x

end Code.Scaled
end Variational
