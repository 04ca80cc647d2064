import Mathlib
import Variational.Dump
import Variational.Report
import Variational.Proofs.ExpressionTokens
import Variational.Proofs.ReferenceTables

/-! Labels of the entries of tensors. With a delimiter between them the numbers of an index are read back from its
label. The labels of the report have no delimiter; they tell the indices of a term apart if at most one number of an
index can have several digits, or two neighbours of which the first is at most ten. Where every number has a choice,
there are no other ranges for which they do. -/
namespace Variational

namespace MultiIndex

variable {ds a b : List ℕ}

theorem cons_mem_tuples {d n : ℕ} : n :: a ∈ tuples (d :: ds) ↔ n < d ∧ a ∈ tuples ds := by
  simp [tuples]

theorem exists_of_mem_tuples_cons {d : ℕ} (h : a ∈ tuples (d :: ds)) : ∃ n b, a = n :: b ∧ n < d ∧ b ∈ tuples ds := by
  simp only [tuples, List.mem_flatMap, List.mem_map, List.mem_range] at h
  obtain ⟨n, hn, b, hb, rfl⟩ := h
  exact ⟨n, b, rfl, hn, hb⟩

section Delimited

variable {separator : String} {delimiter : Char}

theorem mem_label {c : Char} (hseparator : separator.toList = [delimiter]) (h : c ∈ (label separator a).toList) :
    c.isDigit = true ∨ c = delimiter := by
  rcases eq_or_ne a [] with rfl | hne
  · simp [label] at h
  · have hmem := List.mem_append_left separator.toList h
    rw [Naming.delimited_label separator hne, hseparator, List.mem_flatMap] at hmem
    obtain ⟨n, -, hc⟩ := hmem
    exact (List.mem_append.mp hc).imp isDigit_of_mem_toString List.mem_singleton.mp

theorem label_ne_empty (separator : String) (ha : a ≠ []) : label separator a ≠ "" := by
  intro hempty
  obtain ⟨l, n, rfl⟩ := (List.eq_nil_or_concat' a).resolve_left ha
  have hchars := Naming.toList_label_concat separator l n
  rw [hempty] at hchars
  have hdigits : (toString n).toList = [] := (List.append_eq_nil_iff.mp hchars.symm).2
  exact Nat.repr_ne_empty (String.toList_eq_nil_iff.mp hdigits)

/-- With a delimiter that is not a digit an index is read back from its label. -/
theorem label_injective (hseparator : separator.toList = [delimiter]) (hdelimiter : delimiter.isDigit = false) :
    Function.Injective (label separator) := by
  intro l m h
  rcases eq_or_ne l [] with rfl | hl <;> rcases eq_or_ne m [] with rfl | hm
  · rfl
  · exact absurd h.symm (label_ne_empty separator hm)
  · exact absurd h (label_ne_empty separator hl)
  · have hdelimited := (Naming.delimited_label separator hl).symm.trans
      ((congrArg (·.toList ++ separator.toList) h).trans (Naming.delimited_label separator hm))
    rw [hseparator] at hdelimited
    exact Naming.delimited_inj hdelimiter hdelimited

end Delimited

section Plain

/-- The characters of a label without delimiter. -/
def digits (a : List ℕ) : List Char := a.flatMap fun n => (toString n).toList

@[simp] theorem digits_cons (n : ℕ) (a : List ℕ) : digits (n :: a) = (toString n).toList ++ digits a := rfl

theorem toList_label (a : List ℕ) : (label "" a).toList = digits a := by
  rcases eq_or_ne a [] with rfl | hne
  · simp [label, digits]
  · have hchars := Naming.delimited_label "" hne
    rwa [String.toList_empty, List.append_nil, List.flatMap_congr fun n _ => List.append_nil _] at hchars

theorem label_eq_iff : label "" a = label "" b ↔ digits a = digits b := by
  rw [← String.toList_inj, toList_label, toList_label]

/-- Ranges whose numbers are read off a label without delimiter: behind the first range beyond ten there are only
ranges up to ten, except for the next one if the first is eleven. At most one range beyond ten is a special case. -/
def Legible : List ℕ → Prop
  | [] => True
  | d :: ds => (d ≤ 10 ∧ Legible ds) ∨ (∀ e ∈ ds, e ≤ 10) ∨ (d = 11 ∧ ∀ e ∈ ds.tail, e ≤ 10)

instance decidableLegible : (ds : List ℕ) → Decidable (Legible ds)
  | [] => .isTrue trivial
  | d :: ds =>
    have := decidableLegible ds
    inferInstanceAs (Decidable ((d ≤ 10 ∧ Legible ds) ∨ (∀ e ∈ ds, e ≤ 10) ∨ (d = 11 ∧ ∀ e ∈ ds.tail, e ≤ 10)))

/-- If all numbers are digits, the label has as many characters as there are numbers. -/
theorem length_digits (hds : ∀ d ∈ ds, d ≤ 10) (ha : a ∈ tuples ds) : (digits a).length = ds.length := by
  induction ds generalizing a with
  | nil =>
    rw [tuples, List.mem_singleton] at ha
    rw [ha]
    rfl
  | cons d ds ih =>
    obtain ⟨n, b, rfl, hn, hb⟩ := exists_of_mem_tuples_cons ha
    rw [List.forall_mem_cons] at hds
    rw [digits_cons, List.length_append, length_digit (hn.trans_le hds.1), ih hds.2 hb, List.length_cons, Nat.add_comm]

/-- In front of digits a number can be read off, since all that follows has a known length. -/
theorem digits_append_inj (hds : ∀ d ∈ ds, d ≤ 10) (ha : a ∈ tuples ds) (hb : b ∈ tuples ds) {s t : List Char}
    (h : s ++ digits a = t ++ digits b) : s = t ∧ digits a = digits b :=
  List.append_inj' h ((length_digits hds ha).trans (length_digits hds hb).symm)

/-- No numeral continues another one behind a zero. -/
theorem toString_ne_zero_append (p q : ℕ) : (toString p).toList ≠ '0' :: (toString q).toList := by
  intro h
  rcases Grammar.head?_toDigits p with hzero | hhead
  · rw [Nat.toString_eq_repr, Nat.toList_repr, hzero] at h
    exact Nat.repr_ne_empty (String.toList_eq_nil_iff.mp (List.cons.inj h).2.symm)
  · rw [Nat.toString_eq_repr, Nat.toList_repr] at h
    rw [h] at hhead
    exact hhead rfl

/-- A number up to ten is read off in front of another one: after a one, the zero of ten begins no other numeral than
itself. -/
theorem eq_of_toString_append {n m p q : ℕ} (hn : n < 11) (hm : m < 11)
    (h : (toString n).toList ++ (toString p).toList = (toString m).toList ++ (toString q).toList) : n = m := by
  have hten {i p q : ℕ} (hi : i < 10)
      (h : (toString i).toList ++ (toString p).toList = (toString 10).toList ++ (toString q).toList) : False := by
    have hchars : (toString 10).toList = ['1'] ++ ['0'] := rfl
    rw [hchars, List.append_assoc] at h
    exact toString_ne_zero_append p q (List.append_inj h (length_digit hi)).2
  rcases Nat.lt_succ_iff_lt_or_eq.mp hn with hn | rfl <;> rcases Nat.lt_succ_iff_lt_or_eq.mp hm with hm | rfl
  · exact toString_toList_inj (List.append_inj h ((length_digit hn).trans (length_digit hm).symm)).1
  · exact (hten hn h).elim
  · exact (hten hm h.symm).elim
  · rfl

theorem legible_of_short (hds : ∀ d ∈ ds, d ≤ 10) : Legible ds := by
  cases ds with
  | nil => trivial
  | cons d ds => exact .inr (.inl (List.forall_mem_cons.mp hds).2)

theorem digits_injOn (hds : Legible ds) (ha : a ∈ tuples ds) (hb : b ∈ tuples ds) (h : digits a = digits b) :
    a = b := by
  induction ds generalizing a b with
  | nil =>
    rw [tuples, List.mem_singleton] at ha hb
    rw [ha, hb]
  | cons d ds ih =>
    obtain ⟨n, a, rfl, hn, has⟩ := exists_of_mem_tuples_cons ha
    obtain ⟨m, b, rfl, hm, hbs⟩ := exists_of_mem_tuples_cons hb
    rw [digits_cons, digits_cons] at h
    have hread (hshort : ∀ e ∈ ds, e ≤ 10) : n :: a = m :: b := by
      obtain ⟨hfirst, htail⟩ := digits_append_inj hshort has hbs h
      rw [toString_toList_inj hfirst, ih (legible_of_short hshort) has hbs htail]
    rcases hds with ⟨hd, hrest⟩ | hshort | ⟨rfl, hshort⟩
    · have hlength : (toString n).toList.length = (toString m).toList.length := by
        rw [length_digit (hn.trans_le hd), length_digit (hm.trans_le hd)]
      obtain ⟨hfirst, htail⟩ := List.append_inj h hlength
      rw [toString_toList_inj hfirst, ih hrest has hbs htail]
    · exact hread hshort
    · -- The first two numbers are read off together, in front of the digits behind them.
      cases ds with
      | nil => exact hread hshort
      | cons e ds =>
        obtain ⟨p, a, rfl, -, ha'⟩ := exists_of_mem_tuples_cons has
        obtain ⟨q, b, rfl, -, hb'⟩ := exists_of_mem_tuples_cons hbs
        rw [digits_cons, digits_cons, ← List.append_assoc, ← List.append_assoc] at h
        obtain ⟨hpair, -⟩ := digits_append_inj hshort ha' hb' h
        obtain rfl := eq_of_toString_append hn hm hpair
        rw [List.append_assoc, List.append_assoc] at h
        rw [ih (.inr (.inl hshort)) has hbs (List.append_cancel_left h)]

theorem label_injOn (hds : Legible ds) : Set.InjOn (label "") {a | a ∈ tuples ds} :=
  fun _ ha _ hb h => digits_injOn hds ha hb (label_eq_iff.mp h)

section Collisions

theorem zeros_mem_tuples (hds : ∀ d ∈ ds, 0 < d) : List.replicate ds.length 0 ∈ tuples ds := by
  induction ds with
  | nil => simp [tuples]
  | cons d ds ih =>
    rw [List.forall_mem_cons] at hds
    exact cons_mem_tuples.mpr ⟨hds.1, ih hds.2⟩

theorem append_mem_tuples {es : List ℕ} (ha : a ∈ tuples ds) (hb : b ∈ tuples es) : a ++ b ∈ tuples (ds ++ es) := by
  rw [tuples_append]
  exact List.mem_flatMap.mpr ⟨a, ha, List.mem_map_of_mem hb⟩

theorem not_injOn_of_collision (ha : a ∈ tuples ds) (hb : b ∈ tuples ds) (hne : a ≠ b) (h : digits a = digits b) :
    ¬ Set.InjOn (label "") {a | a ∈ tuples ds} :=
  fun hinj => hne (hinj ha hb (label_eq_iff.mpr h))

theorem injOn_tail {d : ℕ} (hd : 0 < d) (h : Set.InjOn (label "") {a | a ∈ tuples (d :: ds)}) :
    Set.InjOn (label "") {a | a ∈ tuples ds} := by
  intro a ha b hb hab
  have hlabel : label "" (0 :: a) = label "" (0 :: b) :=
    label_eq_iff.mpr (by rw [digits_cons, digits_cons, label_eq_iff.mp hab])
  exact (List.cons.inj (h (cons_mem_tuples.mpr ⟨hd, ha⟩) (cons_mem_tuples.mpr ⟨hd, hb⟩) hlabel)).2

variable {m n : ℕ} {back : List ℕ} (hn : 11 ≤ n) (hback : ∀ d ∈ back, 0 < d)
include hn hback

/-- Of two neighbours, the numbers `1` and `10` have the label of `11` and `0`. -/
theorem neighbours_collide (hm : 12 ≤ m) : ¬ Set.InjOn (label "") {a | a ∈ tuples (m :: n :: back)} := by
  have hmem {i j : ℕ} (hi : i < m) (hj : j < n) :
      i :: j :: List.replicate back.length 0 ∈ tuples (m :: n :: back) :=
    cons_mem_tuples.mpr ⟨hi, cons_mem_tuples.mpr ⟨hj, zeros_mem_tuples hback⟩⟩
  exact not_injOn_of_collision (hmem (i := 1) (j := 10) (by omega) (by omega))
    (hmem (i := 11) (j := 0) (by omega) (by omega)) (by simp) rfl

/-- With numbers between, `1`, `0` and `10` have the label of `10`, `1` and `0`, and zeros may stand before the second
one. -/
theorem separated_collide {e : ℕ} {between : List ℕ} (hm : 11 ≤ m) (he : 2 ≤ e) (hbetween : ∀ d ∈ between, 0 < d) :
    ¬ Set.InjOn (label "") {a | a ∈ tuples (m :: (between ++ e :: n :: back))} := by
  have hmem {i j k : ℕ} (hi : i < m) (hj : j < e) (hk : k < n) :
      i :: (List.replicate between.length 0 ++ j :: k :: List.replicate back.length 0) ∈
        tuples (m :: (between ++ e :: n :: back)) :=
    cons_mem_tuples.mpr ⟨hi, append_mem_tuples (zeros_mem_tuples hbetween)
      (cons_mem_tuples.mpr ⟨hj, cons_mem_tuples.mpr ⟨hk, zeros_mem_tuples hback⟩⟩)⟩
  have hzeros (p : ℕ) (a : List ℕ) :
      digits (List.replicate p 0 ++ 0 :: a) = '0' :: digits (List.replicate p 0 ++ a) := by
    induction p with
    | zero => rfl
    | succ p ih =>
      rw [List.replicate_succ, List.cons_append, digits_cons, ih]
      rfl
  refine not_injOn_of_collision (hmem (i := 1) (j := 0) (k := 10) (by omega) (by omega) (by omega))
    (hmem (i := 10) (j := 1) (k := 0) (by omega) (by omega) (by omega)) (by simp) ?_
  rw [digits_cons, hzeros, digits_cons]
  simp only [digits, List.flatMap_append, List.flatMap_cons]
  rfl

end Collisions

/-- Where every number has a choice, the labels tell the indices of no other ranges apart. -/
theorem label_injOn_iff (hds : ∀ d ∈ ds, 2 ≤ d) : Set.InjOn (label "") {a | a ∈ tuples ds} ↔ Legible ds := by
  refine ⟨fun h => ?_, label_injOn⟩
  induction ds with
  | nil => trivial
  | cons d ds ih =>
    obtain ⟨hd, hrest⟩ := List.forall_mem_cons.mp hds
    have hpos {es : List ℕ} (hes : ∀ e ∈ es, e ∈ ds) : ∀ e ∈ es, 0 < e :=
      fun e he => Nat.zero_lt_of_lt (hrest e (hes e he))
    by_cases hshort : d ≤ 10
    · exact .inl ⟨hshort, ih hrest (injOn_tail (Nat.zero_lt_of_lt hd) h)⟩
    have hlong : 11 ≤ d := not_le.mp hshort
    have htail : ∀ e ∈ ds.tail, e ≤ 10 := by
      intro e he
      by_contra hlarge
      cases ds with
      | nil => cases he
      | cons x xs =>
        obtain ⟨front, back, rfl⟩ := List.append_of_mem he
        obtain ⟨between, y, hsplit⟩ := (List.eq_nil_or_concat' (x :: front)).resolve_left (List.cons_ne_nil _ _)
        rw [← List.cons_append, hsplit, List.append_assoc, List.singleton_append] at h hrest hpos
        exact separated_collide (not_le.mp hlarge) (hpos (by simp +contextual)) hlong (hrest y (by simp))
          (hpos (by simp +contextual)) h
    rcases hlong.eq_or_lt with rfl | hlarge
    · exact .inr (.inr ⟨rfl, htail⟩)
    · refine .inr (.inl fun e he => ?_)
      by_contra hnext
      cases ds with
      | nil => cases he
      | cons x xs =>
        rcases List.mem_cons.mp he with rfl | he
        · exact neighbours_collide (not_le.mp hnext) (hpos (by simp +contextual)) hlarge h
        · exact hnext (htail e he)

end Plain
end MultiIndex

namespace Report

theorem geometryLabel_inj {a b : List ℕ} : geometryLabel a = geometryLabel b ↔ label a = label b := by
  simp [geometryLabel, braced]

theorem comma_notMem_label (a : List ℕ) : ',' ∉ (label a).toList := by
  rw [label, MultiIndex.toList_label, MultiIndex.digits, List.mem_flatMap]
  rintro ⟨n, -, hmem⟩
  exact delimiter_notMem_toString rfl n hmem

theorem referenceLabel_inj {i j a b : List ℕ} :
    referenceLabel i a = referenceLabel j b ↔ label i = label j ∧ label a = label b := by
  constructor
  · intro h
    have hchars : (label i).toList ++ ',' :: (' ' :: ((label a).toList ++ ['\x7d'])) =
        (label j).toList ++ ',' :: (' ' :: ((label b).toList ++ ['\x7d'])) := by
      have hlists := congrArg String.toList h
      simpa [referenceLabel, braced] using hlists
    obtain ⟨hprimary, hsecondary⟩ := append_delimiter_inj (comma_notMem_label i) (comma_notMem_label j) hchars
    have hlabel := List.append_cancel_right (List.cons.inj hsecondary).2
    exact ⟨String.toList_inj.mp hprimary, String.toList_inj.mp hlabel⟩
  · rintro ⟨hprimary, hsecondary⟩
    rw [referenceLabel, referenceLabel, hprimary, hsecondary]

section Entries

variable {I A : Set (List ℕ)}

theorem geometryLabel_injOn : Set.InjOn geometryLabel A ↔ Set.InjOn (MultiIndex.label "") A := by
  simp only [Set.InjOn, geometryLabel_inj, label]

theorem referenceLabel_injOn (hI : Set.InjOn (MultiIndex.label "") I) (hA : Set.InjOn (MultiIndex.label "") A) :
    Set.InjOn (fun x : List ℕ × List ℕ => referenceLabel x.1 x.2) {x | x.1 ∈ I ∧ x.2 ∈ A} := by
  rintro x ⟨hxI, hxA⟩ y ⟨hyI, hyA⟩ h
  obtain ⟨hprimary, hsecondary⟩ := referenceLabel_inj.mp h
  exact Prod.ext (hI hxI hyI hprimary) (hA hxA hyA hsecondary)

theorem injOn_of_referenceLabel (hI : I.Nonempty) (hA : A.Nonempty)
    (h : Set.InjOn (fun x : List ℕ × List ℕ => referenceLabel x.1 x.2) {x | x.1 ∈ I ∧ x.2 ∈ A}) :
    Set.InjOn (MultiIndex.label "") I ∧ Set.InjOn (MultiIndex.label "") A := by
  obtain ⟨i, hi⟩ := hI
  obtain ⟨a, ha⟩ := hA
  refine ⟨fun x hx y hy hlabel => ?_, fun x hx y hy hlabel => ?_⟩
  · have hpair : (x, a) = (y, a) := h ⟨hx, ha⟩ ⟨hy, ha⟩ (referenceLabel_inj.mpr ⟨hlabel, rfl⟩)
    exact congrArg Prod.fst hpair
  · have hpair : (i, x) = (i, y) := h ⟨hi, hx⟩ ⟨hi, hy⟩ (referenceLabel_inj.mpr ⟨rfl, hlabel⟩)
    exact congrArg Prod.snd hpair

end Entries
end Report

namespace Dump

theorem columns_inj {i j a b : List ℕ} (h : columns i a = columns j b) : i = j ∧ a = b := by
  have hseparator : " ".toList = [' '] := rfl
  have hbar (l : List ℕ) : '|' ∉ (MultiIndex.label " " l).toList ++ [' '] := by
    intro hmem
    rcases List.mem_append.mp hmem with hlabel | hblank
    · rcases MultiIndex.mem_label hseparator hlabel with hdigit | hdelimiter
      · simp at hdigit
      · simp at hdelimiter
    · simp at hblank
  have hchars : ((MultiIndex.label " " i).toList ++ [' ']) ++ '|' :: (' ' :: (MultiIndex.label " " a).toList) =
      ((MultiIndex.label " " j).toList ++ [' ']) ++ '|' :: (' ' :: (MultiIndex.label " " b).toList) := by
    have hlists := congrArg String.toList h
    simpa [columns] using hlists
  obtain ⟨hprimary, hsecondary⟩ := append_delimiter_inj (hbar i) (hbar j) hchars
  have hlabels {l m : List ℕ} (h : (MultiIndex.label " " l).toList = (MultiIndex.label " " m).toList) : l = m :=
    MultiIndex.label_injective hseparator rfl (String.toList_inj.mp h)
  exact ⟨hlabels (List.append_cancel_right hprimary), hlabels (List.cons.inj hsecondary).2⟩

end Dump

namespace Sum

section Built

variable {α : Type} [Scalar α] {s : Sum α} {numPoints : Option ℕ} {name : String} {f : Form α} {c c' : Cache α}

/-- A form with terms has a cell. -/
theorem cell_of_term (h : Resolve.Returns (s.build numPoints name) c f c') {kind : IntegralKind} {t : Term α}
    (ht : t ∈ f.terms kind) : ∃ cell, f.cell = some cell := by
  simp only [build, Resolve.returns_bind, Resolve.returns_ofResult] at h
  obtain ⟨test, c₁, -, trial, c₂, -, coefficients, c₃, -, cell, c₄, -, terms, c₅, hterms, hform, -⟩ := h
  have hmem : f.cell = cell ∧ t ∈ terms := by
    unfold assemble at hform
    simp only at hform
    split_ifs at hform
    obtain rfl := Except.ok.inj hform
    refine ⟨rfl, ?_⟩
    cases kind <;> exact List.mem_of_mem_filter ht
  cases cell with
  | none =>
    obtain ⟨rfl, -⟩ := Resolve.returns_pure.mp hterms
    cases hmem.2
  | some cell => exact ⟨cell, hmem.1⟩

/-- In every form that is built, the names of the geometry tensors in code tell terms and indices apart, and so do
the columns of the dump. The labels of the report tell the indices of a term apart if the ranges of the index are
legible, and where every number of an index has a choice they do so for no other ranges. -/
theorem labels_distinct (hc : c.Faithful) (hbuild : Resolve.Returns (s.build numPoints name) c f c')
    (kind : IntegralKind) :
    ((TensorCode.geometry (f.terms kind)).flatMap Code.Statement.declared).Nodup ∧
    Function.Injective (fun x : ℕ × List ℕ => TensorCode.entryName x.1 x.2) ∧
    Function.Injective (fun x : List ℕ × List ℕ => Dump.columns x.1 x.2) ∧
    ∀ t ∈ f.terms kind,
      (MultiIndex.Legible t.reference.secondary.dims →
        Set.InjOn Report.geometryLabel {a | a ∈ t.reference.secondary.indices} ∧
        (MultiIndex.Legible t.reference.primary.dims →
          Set.InjOn (fun x : List ℕ × List ℕ => Report.referenceLabel x.1 x.2)
            {x | x.1 ∈ t.reference.primary.indices ∧ x.2 ∈ t.reference.secondary.indices})) ∧
      ((∀ d ∈ t.reference.secondary.dims, 2 ≤ d) →
        (Set.InjOn Report.geometryLabel {a | a ∈ t.reference.secondary.indices} →
          MultiIndex.Legible t.reference.secondary.dims) ∧
        ((∀ d ∈ t.reference.primary.dims, 2 ≤ d) →
          Set.InjOn (fun x : List ℕ × List ℕ => Report.referenceLabel x.1 x.2)
            {x | x.1 ∈ t.reference.primary.indices ∧ x.2 ∈ t.reference.secondary.indices} →
          MultiIndex.Legible t.reference.primary.dims ∧ MultiIndex.Legible t.reference.secondary.dims)) := by
  refine ⟨?_, fun x y h => ?_, fun x y h => ?_, fun t ht => ⟨fun hsecondary => ⟨?_, fun hprimary => ?_⟩,
    fun hsecondary => ⟨fun h => ?_, fun hprimary h => ?_⟩⟩⟩
  · rw [TensorCode.declared_geometry]
    by_cases hterms : ∃ t, t ∈ f.terms kind
    · obtain ⟨t, ht⟩ := hterms
      obtain ⟨cell, hcell⟩ := cell_of_term hbuild ht
      exact TensorCode.nodup_geometryNames ((gives_supplied numPoints name s c f c' hc hbuild).1 cell hcell kind)
    · have hnil : f.terms kind = [] := List.eq_nil_iff_forall_not_mem.mpr fun t ht => hterms ⟨t, ht⟩
      rw [hnil]
      exact List.nodup_nil
  · have hname : TensorCode.geometryName x.1 (some x.2) = TensorCode.geometryName y.1 (some y.2) := h
    obtain ⟨hnumber, hindex⟩ := TensorCode.geometryName_inj hname
    exact Prod.ext hnumber (Option.some.inj hindex)
  · exact Prod.ext (Dump.columns_inj h).1 (Dump.columns_inj h).2
  · exact Report.geometryLabel_injOn.mpr (MultiIndex.label_injOn hsecondary)
  · exact Report.referenceLabel_injOn (MultiIndex.label_injOn hprimary) (MultiIndex.label_injOn hsecondary)
  · exact (MultiIndex.label_injOn_iff hsecondary).mp (Report.geometryLabel_injOn.mp h)
  · have hzeros {ds : List ℕ} (hds : ∀ d ∈ ds, 2 ≤ d) : {a | a ∈ MultiIndex.tuples ds}.Nonempty :=
      ⟨_, MultiIndex.zeros_mem_tuples fun d hd => Nat.zero_lt_of_lt (hds d hd)⟩
    exact (Report.injOn_of_referenceLabel (hzeros hprimary) (hzeros hsecondary) h).imp
      (MultiIndex.label_injOn_iff hprimary).mp (MultiIndex.label_injOn_iff hsecondary).mp

end Built

section Cases

/-- The product of two arguments with an element of twelve values at a point. -/
def pair (a b : Argument) : Sum Blank :=
  let value : Descriptor := .simple "Quadrature" (.simple .point) (some 1)
  let four : Descriptor := .enriched (.enriched value value) (.enriched value value)
  let twelve : Descriptor := .enriched (.enriched four four) four
  ⟨[.ofBasis [.ofArgument twelve a, .ofArgument twelve b]]⟩

/-- A test function with twelve values at a point, times two coefficients with eleven. -/
def vector : Sum Blank :=
  let value : Descriptor := .simple "Quadrature" (.simple .point) (some 1)
  let four : Descriptor := .enriched (.enriched value value) (.enriched value value)
  let eleven : Descriptor := .enriched (.enriched four four) (.enriched (.enriched value value) value)
  ⟨[.ofBasis [.ofArgument (.enriched eleven value) .test, .ofArgument eleven (.function 0),
    .ofArgument eleven (.function 1)]]⟩

/-- The ranges of the primary and of the secondary indices of the terms over the cell, if the sum has a form. -/
def ranges? (s : Sum Blank) : Option (List (List ℕ × List ℕ)) :=
  (Resolve.outcome (s.build none "a") .empty).1.toOption.map fun f =>
    f.interior.map fun t => (t.reference.primary.dims, t.reference.secondary.dims)

theorem exists_of_ranges? {s : Sum Blank} {primary secondary : List ℕ} (h : ranges? s = some [(primary, secondary)]) :
    ∃ (f : Form Blank) (c' : Cache Blank) (t : Term Blank), Resolve.Returns (s.build none "a") .empty f c' ∧
      t ∈ f.terms .interior ∧ t.reference.primary.dims = primary ∧ t.reference.secondary.dims = secondary := by
  obtain ⟨f, hf, hterms⟩ := Option.map_eq_some_iff.mp h
  obtain ⟨t, ht, hranges⟩ := List.map_eq_singleton_iff.mp hterms
  have hmem : t ∈ f.interior := ht ▸ List.mem_singleton_self t
  exact ⟨f, _, t, Prod.ext (Result.toOption_eq_some.mp hf) rfl, hmem, Prod.mk.inj hranges⟩

/-- A vector of twelve entries, each a sum of products over pairs of dofs of two coefficients. -/
theorem labels_distinct_vector : ∃ (f : Form Blank) (c' : Cache Blank) (t : Term Blank),
    Resolve.Returns (vector.build none "a") .empty f c' ∧ t ∈ f.terms .interior ∧
      t.reference.primary.dims = [12] ∧ t.reference.secondary.dims = [11, 11] ∧
      Set.InjOn Report.geometryLabel {a | a ∈ t.reference.secondary.indices} ∧
      Set.InjOn (fun x : List ℕ × List ℕ => Report.referenceLabel x.1 x.2)
        {x | x.1 ∈ t.reference.primary.indices ∧ x.2 ∈ t.reference.secondary.indices} := by
  have hranges : ranges? vector = some [([12], [11, 11])] := by decide +kernel
  obtain ⟨f, c', t, hbuild, ht, hprimary, hsecondary⟩ := exists_of_ranges? hranges
  have hlong : MultiIndex.Legible [12] := by decide
  have hpair : MultiIndex.Legible [11, 11] := by decide
  obtain ⟨-, -, -, hreport⟩ := labels_distinct Cache.faithful_empty hbuild .interior
  obtain ⟨hgeometry, hreference⟩ := (hreport t ht).1 (hsecondary ▸ hpair)
  exact ⟨f, c', t, hbuild, ht, hprimary, hsecondary, hgeometry, hreference (hprimary ▸ hlong)⟩

/-- With two coefficients of twelve dofs, the entries for the second dof of one and the eleventh of the other have the
labels of those for the twelfth and the first one. -/
theorem labels_collide : ∃ (f : Form Blank) (c' : Cache Blank) (t : Term Blank),
    Resolve.Returns ((pair (.function 0) (.function 1)).build none "a") .empty f c' ∧ t ∈ f.terms .interior ∧
      [] ∈ t.reference.primary.indices ∧ [1, 10] ∈ t.reference.secondary.indices ∧
      [11, 0] ∈ t.reference.secondary.indices ∧ Report.geometryLabel [1, 10] = Report.geometryLabel [11, 0] ∧
      Report.referenceLabel [] [1, 10] = Report.referenceLabel [] [11, 0] := by
  have hranges : ranges? (pair (.function 0) (.function 1)) = some [([], [12, 12])] := by decide +kernel
  obtain ⟨f, c', t, hbuild, ht, hprimary, hsecondary⟩ := exists_of_ranges? hranges
  have hlabel : Report.label [1, 10] = Report.label [11, 0] := by decide
  have hindices {i j : ℕ} (hi : i < 12) (hj : j < 12) : [i, j] ∈ t.reference.secondary.indices := by
    rw [MultiIndex.indices, hsecondary]
    exact MultiIndex.cons_mem_tuples.mpr ⟨hi, MultiIndex.cons_mem_tuples.mpr ⟨hj, List.mem_singleton_self _⟩⟩
  refine ⟨f, c', t, hbuild, ht, ?_, hindices (by omega) (by omega), hindices (by omega) (by omega),
    Report.geometryLabel_inj.mpr hlabel, Report.referenceLabel_inj.mpr ⟨rfl, hlabel⟩⟩
  rw [MultiIndex.indices, hprimary]
  exact List.mem_singleton_self _

end Cases
end Sum
end Variational
