import Variational.Proofs.ExpressionGrammar

/-! The tokens of generated expressions. Words are as long as possible: a number takes in points, and after the mark
of an exponent a sign. A text whose marks would be read as a longer operator, such as two minus signs, has no
tokens. What a text denotes is put together from what its parts denote. -/
namespace Variational.Grammar
open Code (Op)

def isWordChar (c : Char) : Bool := c.isAlphanum || c == '_'

def isExponentMark (c : Char) : Bool := c == 'e' || c == 'E' || c == 'p' || c == 'P'

/-- A character belongs to the word before it. -/
def continues (word : List Char) (c : Char) : Bool :=
  isWordChar c || (word.head?.any Char.isDigit &&
    (c == '.' || ((c == '+' || c == '-') && word.getLast?.any isExponentMark)))

/-- Two marks are read as one operator, or start a comment. -/
def joins : Char → Char → Bool
  | '+', c => c == '+' || c == '='
  | '-', c => c == '-' || c == '=' || c == '>'
  | '*', c => c == '='
  | '/', c => c == '/' || c == '*' || c == '='
  | _, _ => false

/-- An exponent with its mark and a sign, which may be missing. -/
def exponent? : List Char → Option ℤ
  | [] => some 0
  | e :: cs =>
    let magnitude (ds : List Char) : Option ℤ :=
      if ds ≠ [] ∧ ds.all Char.isDigit then some (Nat.ofDigitChars 10 ds 0) else none
    if e = 'e' ∨ e = 'E' then
      match cs with
      | '-' :: ds => (magnitude ds).map (- ·)
      | '+' :: ds => magnitude ds
      | ds => magnitude ds
    else none

/-- A number without an exponent and a point is an integer; one that starts with zero is not a decimal. -/
def number? (w : List Char) : Option Token :=
  let whole := w.takeWhile Char.isDigit
  let decimal (places rest : List Char) : Option Token :=
    (exponent? rest).map fun e : ℤ => .number ((Nat.ofDigitChars 10 (whole ++ places) 0 : ℕ) * 10 ^ (e - places.length))
  match w.dropWhile Char.isDigit with
  | [] => if w = ['0'] ∨ w.head? ≠ some '0' then some (.natural (Nat.ofDigitChars 10 w 0)) else none
  | '.' :: cs => decimal (cs.takeWhile Char.isDigit) (cs.dropWhile Char.isDigit)
  | cs => decimal [] cs

/-- The token of a word, if there is a word. -/
def word? (w : List Char) : Option (List Token) :=
  if w = [] then some []
  else if w.head?.any Char.isDigit then (number? w).map ([·])
  else some [.word (String.ofList w)]

def marks : List Char := ['+', '-', '*', '/', '(', ')', '[', ']']

/-- The token of a mark in front of a character. -/
def mark? (c : Char) (next : Option Char) : Option (List Token) :=
  if c = ' ' then some []
  else if c ∈ marks ∧ next.any (joins c) = false then some [.mark c]
  else none

/-- The tokens of a text, after the start of a word. -/
def scan (word : List Char) : List Char → Option (List Token)
  | [] => word? word
  | c :: cs =>
    if continues word c then scan (word ++ [c]) cs
    else do
      let before ← word? word
      let mark ← mark? c cs.head?
      let after ← scan [] cs
      return before ++ mark ++ after

/-- The tokens of a text. -/
def tokens? (text : String) : Option (List Token) := scan [] text.toList

section Scanning

variable {word cs rest : List Char} {ts us : List Token}

theorem scan_continue {c : Char} (h : continues word c = true) : scan word (c :: cs) = scan (word ++ [c]) cs := by
  rw [scan, if_pos h]

theorem continues_of_isWordChar {c : Char} (h : isWordChar c = true) : continues word c = true := by
  simp [continues, h]

theorem scan_word (h : ∀ c ∈ cs, isWordChar c = true) : scan word (cs ++ rest) = scan (word ++ cs) rest := by
  induction cs generalizing word with
  | nil => rw [List.nil_append, List.append_nil]
  | cons c cs ih =>
    rw [List.forall_mem_cons] at h
    rw [List.cons_append, scan_continue (continues_of_isWordChar h.1), ih h.2, List.append_assoc, List.singleton_append]

/-- A text does not go on with a character that belongs to a word before it. -/
def Ends (word rest : List Char) : Prop := ∀ c ∈ rest.head?, continues word c = false

theorem scan_ends (hword : word? word = some ts) (hends : Ends word rest) :
    scan word rest = (scan [] rest).map (ts ++ ·) := by
  cases rest with
  | nil =>
    rw [scan, scan, hword]
    simp [word?]
  | cons c cs =>
    have hc := hends c rfl
    have hnone : continues [] c = false := by
      simp only [continues, Bool.or_eq_false_iff] at hc
      simp [continues, hc.1]
    rw [scan, if_neg (by simp [hc]), scan, if_neg (by simp [hnone]), hword]
    cases mark? c cs.head? <;> cases scan [] cs <;> simp [word?]

theorem scan_blank : scan [] (' ' :: cs) = scan [] cs := by
  have hmark : mark? ' ' cs.head? = some [] := if_pos rfl
  rw [scan, if_neg (by decide), hmark]
  cases scan [] cs <;> rfl

theorem not_continues_mark {c : Char} (hc : c ∈ marks) (h : word.head?.any Char.isDigit = false) :
    continues word c = false := by
  have hmarks : marks.all (fun c => !isWordChar c) = true := by decide
  have hword := List.all_eq_true.mp hmarks c hc
  simp only [continues, h, Bool.false_and, Bool.or_false]
  simpa using hword

theorem scan_mark {c : Char} (hc : c ∈ marks) (hnext : cs.head?.any (joins c) = false) :
    scan [] (c :: cs) = (scan [] cs).map (.mark c :: ·) := by
  have hblank : c ≠ ' ' := by
    rintro rfl
    revert hc
    decide
  have hmark : mark? c cs.head? = some [.mark c] := by
    rw [mark?, if_neg hblank, if_pos ⟨hc, hnext⟩]
  have hword : continues [] c = false := not_continues_mark hc rfl
  rw [scan, if_neg (by simp [hword]), hmark]
  cases scan [] cs <;> rfl

end Scanning

section Texts

/-- A text does not go on with a word. -/
def Delimited (rest : List Char) : Prop := ∀ c ∈ rest.head?, isWordChar c = false ∧ c ≠ '.'

/-- A text has the given tokens, also where another one follows that does not start with a word. -/
def Lexes (cs : List Char) (ts : List Token) : Prop :=
  ∀ rest, Delimited rest → scan [] (cs ++ rest) = (scan [] rest).map (ts ++ ·)

variable {cs ds : List Char} {ts us : List Token}

theorem Lexes.scan_eq (h : Lexes cs ts) : scan [] cs = some ts := by
  have hend : scan [] [] = some [] := rfl
  have hscan := h [] (by simp [Delimited])
  rw [List.append_nil, hend] at hscan
  simpa using hscan

theorem Lexes.append (h : Lexes cs ts) (h' : Lexes ds us) (hdelimited : ∀ rest, Delimited (ds ++ rest)) :
    Lexes (cs ++ ds) (ts ++ us) := by
  intro rest hrest
  rw [List.append_assoc, h _ (hdelimited rest), h' rest hrest, Option.map_map]
  simp [Function.comp_def]

theorem lexes_nil : Lexes [] [] := by
  intro rest _
  simp

theorem Lexes.blank (h : Lexes cs ts) : Lexes (' ' :: cs) ts := by
  intro rest hrest
  rw [List.cons_append, scan_blank, h rest hrest]

theorem Lexes.mark {c : Char} (hc : c ∈ marks) (hjoins : ∀ rest, (cs ++ rest).head?.any (joins c) = false)
    (h : Lexes cs ts) : Lexes (c :: cs) (.mark c :: ts) := by
  intro rest hrest
  rw [List.cons_append, scan_mark hc (hjoins rest), h rest hrest, Option.map_map]
  rfl

/-- A mark that is never the start of a longer operator. -/
theorem Lexes.bracket {c : Char} (hc : c ∈ marks) (hjoins : ∀ d, joins c d = false) (h : Lexes cs ts) :
    Lexes (c :: cs) (.mark c :: ts) :=
  h.mark hc fun rest => by cases (cs ++ rest).head? <;> simp [hjoins]

theorem Delimited.ends {word rest : List Char} (h : Delimited rest)
    (hlast : word.head?.any Char.isDigit = true → word.getLast?.any isExponentMark = false) : Ends word rest := by
  intro c hc
  obtain ⟨hword, hpoint⟩ := h c hc
  cases hdigit : word.head?.any Char.isDigit with
  | false => simp [continues, hword, hdigit]
  | true => simp [continues, hword, hpoint, hlast hdigit]

theorem delimited_cons {c : Char} (hword : isWordChar c = false) (hpoint : c ≠ '.') (cs : List Char) :
    Delimited (c :: cs) := by
  intro d hd
  obtain rfl : c = d := Option.some.inj hd
  exact ⟨hword, hpoint⟩

theorem lexes_word {word : List Char} (hword : ∀ c ∈ word, isWordChar c = true) (htokens : word? word = some ts)
    (hlast : word.head?.any Char.isDigit = true → word.getLast?.any isExponentMark = false) : Lexes word ts := by
  intro rest hrest
  rw [scan_word hword, List.nil_append]
  exact scan_ends htokens (hrest.ends hlast)

/-- A name. -/
theorem lexes_name {s : String} (hne : s.toList ≠ []) (hword : ∀ c ∈ s.toList, isWordChar c = true)
    (hhead : s.toList.head?.any Char.isDigit = false) : Lexes s.toList [.word s] := by
  refine lexes_word hword ?_ (by simp [hhead])
  rw [word?, if_neg hne, if_neg (by simp [hhead]), String.ofList_toList]

end Texts

section Numbers

variable {ds places whole : List Char}

theorem isWordChar_of_isDigit {c : Char} (h : c.isDigit = true) : isWordChar c = true := by
  simp [isWordChar, Char.isAlphanum, h]

theorem not_isExponentMark_of_isDigit {c : Char} (h : c.isDigit = true) : isExponentMark c = false := by
  have hne (d : Char) (hd : d.isDigit = false) : c ≠ d := by
    rintro rfl
    rw [h] at hd
    cases hd
  simp [isExponentMark, hne]

theorem takeWhile_digits (hds : ∀ c ∈ ds, c.isDigit = true) (rest : List Char)
    (hrest : rest.head?.any Char.isDigit = false) :
    (ds ++ rest).takeWhile Char.isDigit = ds ∧ (ds ++ rest).dropWhile Char.isDigit = rest := by
  rw [List.takeWhile_append_of_pos hds, List.dropWhile_append_of_pos hds]
  cases rest with
  | nil => simp
  | cons c cs =>
    have hc : c.isDigit = false := by simpa using hrest
    simp [hc]

theorem getLast?_digits (hne : ds ≠ []) (hds : ∀ c ∈ ds, c.isDigit = true) (cs : List Char) :
    (cs ++ ds).getLast?.any isExponentMark = false := by
  rw [List.getLast?_append_of_ne_nil _ hne, List.getLast?_eq_some_getLast hne]
  exact not_isExponentMark_of_isDigit (hds _ (List.getLast_mem hne))

theorem head?_digits (hne : ds ≠ []) (hds : ∀ c ∈ ds, c.isDigit = true) (cs : List Char) :
    (ds ++ cs).head?.any Char.isDigit = true := by
  rw [List.head?_append_of_ne_nil _ hne, List.head?_eq_some_head hne]
  exact hds _ (List.head_mem hne)

/-- Only the number zero is written with a zero in front. -/
theorem head?_toDigits (n : ℕ) : Nat.toDigits 10 n = ['0'] ∨ (Nat.toDigits 10 n).head? ≠ some '0' := by
  have hpos (n : ℕ) (hn : 0 < n) : (Nat.toDigits 10 n).head? ≠ some '0' := by
    induction n using Nat.strong_induction_on with
    | _ n ih =>
      rw [Nat.toDigits_eq_if (by norm_num)]
      split_ifs with hlt
      · intro h
        have hzero := (Nat.digitChar_eq_zero).mp (Option.some.inj h)
        omega
      · rw [List.head?_append_of_ne_nil _ (List.ne_nil_of_length_pos Nat.length_toDigits_pos)]
        exact ih (n / 10) (by omega) (by omega)
  rcases n.eq_zero_or_pos with rfl | hn
  · exact .inl rfl
  · exact .inr (hpos n hn)

theorem lexes_natural (n : ℕ) : Lexes (Nat.toDigits 10 n) [.natural n] := by
  have hdigits : ∀ c ∈ Nat.toDigits 10 n, c.isDigit = true :=
    fun c => Nat.isDigit_of_mem_toDigits (by norm_num) (by norm_num)
  have hne : Nat.toDigits 10 n ≠ [] := List.ne_nil_of_length_pos Nat.length_toDigits_pos
  have hhead : (Nat.toDigits 10 n).head?.any Char.isDigit = true := by
    simpa using head?_digits hne hdigits []
  obtain ⟨-, hrest⟩ := takeWhile_digits hdigits [] rfl
  rw [List.append_nil] at hrest
  refine lexes_word (fun c hc => isWordChar_of_isDigit (hdigits c hc)) ?_ fun _ => getLast?_digits hne hdigits []
  rw [word?, if_neg hne, if_pos hhead, number?, hrest]
  dsimp only
  rw [if_pos (head?_toDigits n), Nat.ofDigitChars_ten_toDigits]
  rfl

/-- The point stands in front of places only. -/
def pointed (places : List Char) : List Char := if places = [] then [] else '.' :: places

/-- An exponent with its mark and its sign. -/
def exponent (negative : Bool) (ds : List Char) : List Char := 'e' :: (if negative then '-' else '+') :: ds

/-- The value of a decimal. -/
def decimal (whole places : List Char) (negative : Bool) (ds : List Char) : ℚ :=
  Nat.ofDigitChars 10 (whole ++ places) 0 *
    10 ^ ((if negative then -1 else 1) * (Nat.ofDigitChars 10 ds 0 : ℤ) - places.length)

theorem exponent?_exponent (hne : ds ≠ []) (hds : ∀ c ∈ ds, c.isDigit = true) (negative : Bool) :
    exponent? (exponent negative ds) = some ((if negative then -1 else 1) * (Nat.ofDigitChars 10 ds 0 : ℤ)) := by
  have hmagnitude : ds ≠ [] ∧ ds.all Char.isDigit := ⟨hne, List.all_eq_true.mpr hds⟩
  cases negative <;> simp [exponent?, exponent, hmagnitude]

theorem number?_decimal (hwhole : ∀ c ∈ whole, c.isDigit = true) (hplaces : ∀ c ∈ places, c.isDigit = true)
    (hne : ds ≠ []) (hds : ∀ c ∈ ds, c.isDigit = true) (negative : Bool) :
    number? (whole ++ (pointed places ++ exponent negative ds)) =
      some (.number (decimal whole places negative ds)) := by
  have hhead : (pointed places ++ exponent negative ds).head?.any Char.isDigit = false := by
    unfold pointed exponent
    split_ifs <;> rfl
  obtain ⟨htake, hdrop⟩ := takeWhile_digits hwhole _ hhead
  have hexponent := exponent?_exponent hne hds negative
  rw [number?, htake, hdrop]
  by_cases hnil : places = []
  · subst hnil
    change (exponent? (exponent negative ds)).map _ = _
    rw [hexponent]
    rfl
  · rw [pointed, if_neg hnil, List.cons_append]
    obtain ⟨htake, hdrop⟩ := takeWhile_digits hplaces (exponent negative ds) rfl
    change (exponent? ((places ++ exponent negative ds).dropWhile Char.isDigit)).map _ = _
    rw [htake, hdrop, hexponent]
    rfl

/-- A number goes on over a point. -/
theorem scan_pointed {word : List Char} (hword : word.head?.any Char.isDigit = true)
    (hplaces : ∀ c ∈ places, c.isDigit = true) (cs : List Char) :
    scan word (pointed places ++ cs) = scan (word ++ pointed places) cs := by
  unfold pointed
  split_ifs
  · simp
  · have hcontinues : continues word '.' = true := by simp [continues, hword]
    have hdigits : ∀ c ∈ places, isWordChar c = true := fun c hc => isWordChar_of_isDigit (hplaces c hc)
    rw [List.cons_append, scan_continue hcontinues, scan_word hdigits, List.append_assoc]
    rfl

/-- A number goes on over a sign, because the mark of the exponent is in front of it. -/
theorem scan_exponent {word : List Char} (hword : word.head?.any Char.isDigit = true)
    (hds : ∀ c ∈ ds, c.isDigit = true) (negative : Bool) (cs : List Char) :
    scan word (exponent negative ds ++ cs) = scan (word ++ exponent negative ds) cs := by
  have hmark : continues word 'e' = true := continues_of_isWordChar rfl
  have hsign : continues (word ++ ['e']) (if negative then '-' else '+') = true := by
    have hdigit : (word ++ ['e']).head?.any Char.isDigit = true := by
      cases word with
      | nil => cases hword
      | cons c cs => exact hword
    rw [continues, hdigit]
    cases negative <;> simp [isExponentMark]
  have hdigits : ∀ c ∈ ds, isWordChar c = true := fun c hc => isWordChar_of_isDigit (hds c hc)
  rw [exponent, List.cons_append, scan_continue hmark, List.cons_append, scan_continue hsign, scan_word hdigits]
  simp

theorem lexes_decimal (hpos : whole ≠ []) (hwhole : ∀ c ∈ whole, c.isDigit = true)
    (hplaces : ∀ c ∈ places, c.isDigit = true) (hne : ds ≠ []) (hds : ∀ c ∈ ds, c.isDigit = true) (negative : Bool) :
    Lexes (whole ++ (pointed places ++ exponent negative ds)) [.number (decimal whole places negative ds)] := by
  intro rest hrest
  have hhead := head?_digits hpos hwhole
  have hfirst : whole.head?.any Char.isDigit = true := by simpa using hhead []
  have hword : word? (whole ++ (pointed places ++ exponent negative ds)) =
      some [.number (decimal whole places negative ds)] := by
    rw [word?, if_neg (by simp [hpos]), if_pos (hhead _), number?_decimal hwhole hplaces hne hds]
    rfl
  have hlast := getLast?_digits hne hds (whole ++ pointed places ++ ['e', if negative then '-' else '+'])
  rw [List.append_assoc, List.append_assoc, scan_word fun c hc => isWordChar_of_isDigit (hwhole c hc),
    List.nil_append, scan_pointed hfirst hplaces, scan_exponent (hhead _) hds, List.append_assoc]
  refine scan_ends hword (hrest.ends fun _ => ?_)
  simpa [exponent] using hlast

end Numbers
end Variational.Grammar
