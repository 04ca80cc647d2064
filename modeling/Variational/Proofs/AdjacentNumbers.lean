import Variational.Proofs.PrintedNumbers

/-! Numbers without an operator in front of them. Where a number with a point follows an expression, with a blank or
without anything between them, there is no expression: the number is either read as part of the word before it,
which then is no word, or as an operand for which no operation waits. -/
namespace Variational.Grammar
open Code (Op)

section Words

variable {w ds : List Char}

/-- A word that is no token in any continuation. -/
theorem scan_none (h : ∀ more, word? (w ++ more) = none) (cs : List Char) : scan w cs = none := by
  induction cs generalizing w with
  | nil => simpa [scan] using h []
  | cons c cs ih =>
    have hword : word? w = none := by simpa using h []
    rw [scan, hword]
    split_ifs
    · exact ih fun more => by simpa using h (c :: more)
    · rfl

variable {d : Char} (hd : d.isDigit = true) (more : List Char)
include hd

/-- No exponent goes on with a point. -/
theorem exponent?_point {cs : List Char} {e : ℤ} (h : exponent? cs = some e) :
    exponent? ((cs ++ d :: '.' :: more).dropWhile Char.isDigit) = none := by
  cases cs with
  | nil => simp [hd, exponent?]
  | cons c cs =>
    have hc : c = 'e' ∨ c = 'E' := by
      by_contra hne
      simp [exponent?, hne] at h
    have hletter : c.isDigit = false := by rcases hc with rfl | rfl <;> rfl
    rw [List.cons_append, List.dropWhile_cons_of_neg (by simp [hletter])]
    have hpoint : '.' ∈ cs ++ d :: '.' :: more := by simp
    have hspoiled {ds : List Char} (hds : '.' ∈ ds) : ¬ (ds ≠ [] ∧ ds.all Char.isDigit = true) := by
      rintro ⟨-, hall⟩
      exact absurd (List.all_eq_true.mp hall _ hds) (by decide)
    unfold exponent?
    dsimp only
    rw [if_pos hc]
    split
    · rename_i ds heq
      rw [heq] at hpoint
      rw [if_neg (hspoiled (by simpa using hpoint)), Option.map_none]
    · rename_i ds heq
      rw [heq] at hpoint
      rw [if_neg (hspoiled (by simpa using hpoint))]
    · rw [if_neg (hspoiled hpoint)]

theorem number?_point {x : ℚ} (h : number? w = some (.number x)) : number? (w ++ d :: '.' :: more) = none := by
  rw [number?] at h ⊢
  rw [List.dropWhile_append]
  cases hdrop : w.dropWhile Char.isDigit with
  | nil =>
    rw [hdrop] at h
    dsimp only at h
    split_ifs at h
    cases Option.some.inj h
  | cons c cs =>
    have hc : c.isDigit = false := by
      have hhead := List.head_dropWhile_not Char.isDigit (l := w) (by simp [hdrop])
      simpa [hdrop] using hhead
    rw [hdrop] at h
    simp only [List.isEmpty_cons, Bool.false_eq_true, if_false, List.cons_append]
    by_cases hpoint : c = '.'
    · subst hpoint
      obtain ⟨e, he, -⟩ := Option.map_eq_some_iff.mp h
      have hnone := exponent?_point hd more he
      have htake : ∀ x ∈ cs.takeWhile Char.isDigit, x.isDigit = true := fun x hx => List.mem_takeWhile_imp hx
      rw [← List.dropWhile_append_of_pos htake, ← List.append_assoc, List.takeWhile_append_dropWhile] at hnone
      change (exponent? ((cs ++ d :: '.' :: more).dropWhile Char.isDigit)).map _ = none
      rw [hnone, Option.map_none]
    · have he : ∃ e, exponent? (c :: cs) = some e := by
        split at h
        · simp_all
        · simp_all
        · obtain ⟨e, he, -⟩ := Option.map_eq_some_iff.mp h
          exact ⟨e, he⟩
      obtain ⟨e, he⟩ := he
      have hnone := exponent?_point hd more he
      rw [List.cons_append, List.dropWhile_cons_of_neg (by simp [hc])] at hnone
      split
      · simp_all
      · simp_all
      · rw [hnone, Option.map_none]

omit hd in
theorem number?_kind {t : Token} (h : number? w = some t) : (∃ x, t = .number x) ∨ ∃ n, t = .natural n := by
  unfold number? at h
  dsimp only at h
  split at h
  · split_ifs at h
    exact .inr ⟨_, (Option.some.inj h).symm⟩
  all_goals
    obtain ⟨e, -, rfl⟩ := Option.map_eq_some_iff.mp h
    exact .inl ⟨_, rfl⟩

omit hd in
/-- The tokens of a text that begins with a digit begin with a number. -/
theorem scan_digit (hw : w.head?.any Char.isDigit = true) {cs : List Char} {ts : List Token} (h : scan w cs = some ts) :
    ∃ t us, ts = t :: us ∧ ((∃ x, t = .number x) ∨ ∃ n, t = .natural n) := by
  have hword {v : List Char} (hv : v.head?.any Char.isDigit = true) {ks : List Token} (hks : word? v = some ks) :
      ∃ t, ks = [t] ∧ ((∃ x, t = .number x) ∨ ∃ n, t = .natural n) := by
    have hne : v ≠ [] := by
      rintro rfl
      cases hv
    rw [word?, if_neg hne, if_pos hv, Option.map_eq_some_iff] at hks
    obtain ⟨t, ht, rfl⟩ := hks
    exact ⟨t, rfl, number?_kind ht⟩
  induction cs generalizing w with
  | nil =>
    obtain ⟨t, rfl, ht⟩ := hword hw h
    exact ⟨t, [], rfl, ht⟩
  | cons c cs ih =>
    rw [scan] at h
    split_ifs at h
    · have hhead : (w ++ [c]).head?.any Char.isDigit = true := by
        cases w with
        | nil => cases hw
        | cons x xs => exact hw
      exact ih hhead h
    · simp only [Option.bind_eq_bind, Option.bind_eq_some_iff, Option.pure_def, Option.some.injEq] at h
      obtain ⟨ks, hks, mark, -, after, -, rfl⟩ := h
      obtain ⟨t, rfl, ht⟩ := hword hw hks
      exact ⟨t, mark ++ after, rfl, ht⟩

end Words

section Adjacent

/-- The last token is not an integer. -/
def EndsOperand (ts : List Token) : Prop := ∀ n, ts.getLast? ≠ some (.natural n)

theorem EndsOperand.of_append {ts us : List Token} (h : EndsOperand (ts ++ us)) : EndsOperand us := by
  intro n hn
  refine h n ?_
  rw [List.getLast?_append, hn]
  rfl

theorem EndsOperand.mark {us : List Token} (h : EndsOperand us) (ts : List Token) (c : Char) :
    EndsOperand (ts ++ .mark c :: us) := by
  intro n hn
  rw [List.getLast?_append_of_ne_nil _ (List.cons_ne_nil _ _)] at hn
  cases us with
  | nil => cases hn
  | cons u us => exact h n hn

theorem endsOperand_nil : EndsOperand [] := by simp [EndsOperand]

theorem Derives.endsOperand {l : Level} {ts : List Token} {t : Tree} (h : Derives l ts t) : EndsOperand ts := by
  induction h with
  | number x => simp [EndsOperand]
  | place s is =>
    induction is using List.reverseRecOn with
    | nil => simp [EndsOperand]
    | append_singleton is i _ =>
      have htokens : Token.word s :: (is ++ [i]).flatMap Token.access =
          (Token.word s :: is.flatMap Token.access ++ [.mark '[', .natural i]) ++ [.mark ']'] := by simp [Token.access]
      rw [htokens]
      exact endsOperand_nil.mark _ ']'
  | @parens ts => exact endsOperand_nil.mark (.mark '(' :: ts) ')'
  | operand _ ih | factor _ ih | product _ ih => exact ih
  | neg _ ih => exact ih.mark [] '-'
  | @times op ts _ _ _ _ _ _ _ ih | @plus op ts _ _ _ _ _ _ _ ih => exact ih.mark ts op.mark

/-- A mark is the same in front of a digit and at the end of a text. -/
theorem mark?_digit {c d : Char} (hd : d.isDigit = true) (cs more : List Char) :
    mark? c (cs ++ d :: more).head? = mark? c cs.head? := by
  cases cs with
  | cons => rfl
  | nil =>
    have hjoins : joins c d = false := joins_eq_false (.inl (isWordChar_of_isDigit hd)) c
    simp [mark?, hjoins]

/-- A number after a text either has its own token or spoils the last word of the text. -/
theorem scan_append_number {word cs : List Char} {ts : List Token} (h : scan word cs = some ts) (hts : EndsOperand ts)
    {d : Char} (hd : d.isDigit = true) (more : List Char) : scan word (cs ++ d :: '.' :: more) = none ∨
      ∃ t us, scan word (cs ++ d :: '.' :: more) = some (ts ++ t :: us) ∧
        ((∃ x, t = .number x) ∨ ∃ n, t = .natural n) := by
  induction cs generalizing word ts with
  | nil =>
    have hcontinues : continues word d = true := continues_of_isWordChar (isWordChar_of_isDigit hd)
    rw [List.nil_append, scan_continue hcontinues]
    by_cases hnil : word = []
    · subst hnil
      obtain rfl : ts = [] := (Option.some.inj h).symm
      cases hscan : scan ([] ++ [d]) ('.' :: more) with
      | none => exact .inl rfl
      | some ks =>
        obtain ⟨t, us, rfl, ht⟩ := scan_digit (by simpa using hd) hscan
        exact .inr ⟨t, us, rfl, ht⟩
    · left
      cases hhead : word.head?.any Char.isDigit with
      | false =>
        have hpoint : continues (word ++ [d]) '.' = false := by
          simp [continues, isWordChar, Char.isAlphanum, List.head?_append_of_ne_nil _ hnil, hhead]
        have hmark : mark? '.' more.head? = none := by simp [mark?, marks]
        rw [scan, if_neg (by simp [hpoint]), hmark]
        cases word? (word ++ [d]) <;> rfl
      | true =>
        have hfirst (ds : List Char) : (word ++ ds).head?.any Char.isDigit = true := by
          rwa [List.head?_append_of_ne_nil _ hnil]
        obtain ⟨t, ht, rfl⟩ : ∃ t, number? word = some t ∧ [t] = ts := by
          rwa [scan, word?, if_neg hnil, if_pos hhead, Option.map_eq_some_iff] at h
        have hinteger : ¬ ∃ n, t = .natural n := by
          rintro ⟨n, rfl⟩
          exact hts n rfl
        obtain ⟨x, rfl⟩ := (number?_kind ht).resolve_right hinteger
        have hpoint : continues (word ++ [d]) '.' = true := by
          rw [continues, hfirst]
          simp
        rw [scan_continue hpoint]
        refine scan_none (fun rest => ?_) _
        have hnone := number?_point hd rest ht
        rw [List.append_assoc, List.append_assoc, word?, if_neg (by simp [hnil]), if_pos (hfirst _)]
        simpa using hnone
  | cons c cs ih =>
    rw [List.cons_append]
    by_cases hcontinues : continues word c = true
    · rw [scan_continue hcontinues] at h ⊢
      exact ih h hts
    · rw [scan, if_neg hcontinues] at h ⊢
      simp only [Option.bind_eq_bind, Option.bind_eq_some_iff, Option.pure_def, Option.some.injEq] at h ⊢
      obtain ⟨before, hbefore, mark, hmark, after, hafter, rfl⟩ := h
      rw [hbefore, mark?_digit hd, hmark]
      rcases ih hafter hts.of_append with hnone | ⟨t, us, hsome, ht⟩
      · rw [hnone]
        exact .inl rfl
      · rw [hsome]
        exact .inr ⟨t, us, by simp, ht⟩

/-- No operation waits for an operand after a whole expression. -/
theorem not_derives_append {ts us : List Token} {t u : Tree} (h : Derives .sum ts t) {k : Token}
    (hk : (∃ x, k = .number x) ∨ ∃ n, k = .natural n) : ¬ Derives .sum (ts ++ k :: us) u := by
  intro hu
  obtain ⟨v, fs, hread, -⟩ := h.reads [] (k :: us) trivial
  obtain ⟨w, gs, hread', hunwind⟩ := hu.reads [] [] trivial
  have hstuck : read (some v) fs (k :: us) = none := by
    rcases hk with ⟨x, rfl⟩ | ⟨n, rfl⟩ <;> cases v <;> rfl
  rw [List.append_nil, hread, hstuck, read_end, hunwind] at hread'
  cases hread'

/-- A number directly after an expression. -/
theorem not_denotes_append {K : Type} [Field K] (env : String × List ℕ → K) {cs : List Char} {ts : List Token}
    {t : Tree} (hscan : scan [] cs = some ts) (hderives : Derives .sum ts t) {d : Char} (hd : d.isDigit = true)
    (more : List Char) (x : K) : ¬ Denotes env (String.ofList (cs ++ d :: '.' :: more)) x := by
  rintro ⟨ks, u, htokens, hu, -⟩
  rw [tokens?, String.toList_ofList] at htokens
  rcases scan_append_number hscan hderives.endsOperand hd more with hnone | ⟨k, us, hsome, hk⟩
  · rw [hnone] at htokens
    cases htokens
  · rw [hsome] at htokens
    obtain rfl := Option.some.inj htokens
    exact not_derives_append hderives hk hu

end Adjacent
end Variational.Grammar
