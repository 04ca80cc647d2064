import Variational.Proofs.TensorNames

/-! The tokens of declarations. Text is cut at blanks, braces, commas and semicolons; the initializers of arrays
and tables read as lists in braces, one inside the other. -/
namespace Variational

namespace Code

inductive Token where
  | opening
  | closing
  | comma
  | semicolon
  | word (text : String)
  deriving DecidableEq, Repr

namespace Token

/-- What a character that ends a word stands for. Blanks and ends of lines stand for nothing, and so does the
backslash that continues a line. -/
def separator? : Char → Option (List Token)
  | '\x7b' => some [opening]
  | '\x7d' => some [closing]
  | ',' => some [comma]
  | ';' => some [semicolon]
  | ' ' => some []
  | '\n' => some []
  | '\\' => some []
  | _ => none

def ended (text : List Char) : List Token := if text = [] then [] else [word (String.ofList text)]

/-- The tokens of a text, of which the start of a word has been read. -/
def scan (start : List Char) : List Char → List Token
  | [] => ended start
  | c :: cs =>
    match separator? c with
    | some ts => ended start ++ ts ++ scan [] cs
    | none => scan (start ++ [c]) cs

/-- Items in braces with commas between them. -/
def listed (items : List (List Token)) : List Token := opening :: [comma].intercalate items ++ [closing]

/-- The declaration of an array of numbers with its initializer. -/
def declaration (qualifiers : List String) (name : String) (dims : List ℕ) (initializer : List Token) :
    List Token :=
  (qualifiers ++ ["double", name ++ extents dims, "="]).map word ++ initializer ++ [semicolon]

end Token

def Statement.tokens (places : ℕ) (st : Statement Float) : List Token :=
  Token.scan [] ("\n".intercalate (st.lines places)).toList

section Words

/-- Text in which no word ends. -/
def Unbroken (cs : List Char) : Prop := ∀ c ∈ cs, Token.separator? c = none

theorem unbroken_nil : Unbroken [] := List.forall_mem_nil _

theorem Unbroken.cons {c : Char} {cs : List Char} (hc : Token.separator? c = none) (hcs : Unbroken cs) :
    Unbroken (c :: cs) := List.forall_mem_cons.mpr ⟨hc, hcs⟩

theorem Unbroken.append {cs ds : List Char} (hcs : Unbroken cs) (hds : Unbroken ds) : Unbroken (cs ++ ds) :=
  List.forall_mem_append.mpr ⟨hcs, hds⟩

theorem unbroken_toDigits (n : ℕ) : Unbroken (Nat.toDigits 10 n) := by
  intro c hc
  have hdigit : c.isDigit = true := Nat.isDigit_of_mem_toDigits (by norm_num) (by norm_num) hc
  unfold Token.separator?
  split <;> first | rfl | exact absurd hdigit (by decide)

theorem unbroken_toString (n : ℕ) : Unbroken (toString n).toList := by
  change Unbroken n.repr.toList
  rw [Nat.toList_repr]
  exact unbroken_toDigits n

theorem unbroken_extents (dims : List ℕ) : Unbroken (extents dims).toList := by
  rw [extents, String.toList_join]
  refine List.forall_mem_flatMap.mpr (List.forall_mem_map.mpr fun n _ => ?_)
  change Unbroken ("[" ++ toString n ++ "]").toList
  rw [String.toList_append, String.toList_append]
  have hopen : Unbroken "[".toList := unbroken_nil.cons rfl
  have hclose : Unbroken "]".toList := unbroken_nil.cons rfl
  exact (hopen.append (unbroken_toString n)).append hclose

/-- A text that is one word. -/
structure Word (s : String) : Prop where
  nonempty : s ≠ ""
  unbroken : Unbroken s.toList

theorem Word.append {s t : String} (hs : Word s) (ht : Unbroken t.toList) : Word (s ++ t) := by
  refine ⟨fun h => hs.nonempty (String.append_eq_empty_iff.mp h).1, ?_⟩
  rw [String.toList_append]
  exact hs.unbroken.append ht

/-- The names of the entries of geometry tensors are words. -/
theorem word_entryName (n : ℕ) (a : List ℕ) : Word (TensorCode.entryName n a) := by
  have hdelimited := TensorCode.entryName_delimited n a
  constructor
  · intro hempty
    rw [hempty] at hdelimited
    simp at hdelimited
  · have hunbroken : Unbroken ('G' :: (n :: a).flatMap fun n => (toString n).toList ++ ['_']) := by
      refine Unbroken.cons rfl (List.forall_mem_flatMap.mpr fun k _ => ?_)
      exact (unbroken_toString k).append (unbroken_nil.cons rfl)
    rw [← hdelimited] at hunbroken
    exact (List.forall_mem_append.mp hunbroken).1

end Words
end Code

namespace Scientific
open Code

theorem unbroken_padded (width n : ℕ) : Unbroken (padded width n) := by
  refine Unbroken.append (fun c hc => ?_) (unbroken_toDigits n)
  rw [List.eq_of_mem_replicate hc]
  rfl

theorem unbroken_sign (negative : Bool) : Unbroken (if negative then ['-'] else []) := by
  split_ifs
  · exact unbroken_nil.cons rfl
  · exact unbroken_nil

theorem unbroken_exponent (e : ℤ) : Unbroken (literalStyle.exponent e) := by
  refine Unbroken.append ?_ (unbroken_padded _ _)
  split_ifs
  · exact unbroken_nil.cons rfl
  · exact unbroken_nil.cons rfl
  · exact unbroken_nil

theorem unbroken_rounded (places : ℕ) (r : Rounded) : Unbroken (literalStyle.rounded places r) := by
  have hdigits := unbroken_padded (places + 1) r.mantissa
  refine Unbroken.append ?_ ((unbroken_exponent r.exponent).cons rfl)
  split
  · rename_i heq
    exact heq ▸ hdigits
  · rename_i d ds _ heq
    rw [heq] at hdigits
    obtain ⟨hd, hds⟩ := List.forall_mem_cons.mp hdigits
    exact (Unbroken.cons rfl hds).cons hd
  · exact unbroken_nil

/-- Numbers of generated code are words. -/
theorem word_literal (x : Float) (places : ℕ) : Word (literal x places) := by
  have hchars (b : Binary) : literalStyle.chars places b ≠ [] ∧ Unbroken (literalStyle.chars places b) := by
    cases b with
    | nan => exact ⟨List.cons_ne_nil 'N' _, ((unbroken_nil.cons rfl).cons rfl).cons rfl⟩
    | infinite negative =>
      refine ⟨?_, (unbroken_sign negative).append (((unbroken_nil.cons rfl).cons rfl).cons rfl)⟩
      exact List.append_ne_nil_of_right_ne_nil _ (List.cons_ne_nil 'i' _)
    | finite negative m q =>
      refine ⟨?_, (unbroken_sign negative).append (unbroken_rounded places _)⟩
      simp [Style.chars, Style.rounded]
  obtain ⟨hnonempty, hunbroken⟩ := hchars (Binary.ofFloat x)
  rw [← String.toList_ofList (l := literalStyle.chars places (Binary.ofFloat x))] at hunbroken
  exact ⟨fun h => hnonempty (String.ofList_eq_empty_iff.mp h), hunbroken⟩

end Scientific

namespace Code
open Token

section Scanning

theorem scan_unbroken {cs : List Char} (hcs : Unbroken cs) (start rest : List Char) :
    scan start (cs ++ rest) = scan (start ++ cs) rest := by
  induction cs generalizing start with
  | nil => rw [List.nil_append, List.append_nil]
  | cons c cs ih =>
    obtain ⟨hc, hcs⟩ := List.forall_mem_cons.mp hcs
    rw [List.cons_append, scan, hc]
    dsimp only
    rw [ih hcs, List.append_assoc, List.singleton_append]

theorem scan_separator {c : Char} {ts : List Token} (hc : separator? c = some ts) (start cs : List Char) :
    scan start (c :: cs) = ended start ++ (ts ++ scan [] cs) := by
  rw [scan, hc]
  exact List.append_assoc _ _ _

theorem scan_newline (cs : List Char) : scan [] ("\n".toList ++ cs) = scan [] cs :=
  scan_separator (c := '\n') rfl [] cs

/-- The text reads as the given tokens wherever something that ends a word follows it. -/
def Reads (s : String) (ts : List Token) : Prop :=
  ∀ (c : Char) (rest : List Char), (separator? c).isSome = true →
    scan [] (s.toList ++ c :: rest) = ts ++ scan [] (c :: rest)

theorem Word.reads {s : String} (h : Word s) : Reads s [.word s] := by
  intro c rest hc
  obtain ⟨ts, hts⟩ := Option.isSome_iff_exists.mp hc
  have hne : s.toList ≠ [] := fun hnil => h.nonempty (String.toList_eq_nil_iff.mp hnil)
  rw [scan_unbroken h.unbroken, List.nil_append, scan_separator hts, scan_separator hts, ended, if_neg hne,
    String.ofList_toList]
  rfl

theorem reads_map {β : Type} {xs : List β} {text : β → String} {tokens : β → List Token}
    (h : ∀ x ∈ xs, Reads (text x) (tokens x)) : List.Forall₂ Reads (xs.map text) (xs.map tokens) := by
  rw [List.forall₂_map_left_iff, List.forall₂_map_right_iff, List.forall₂_same]
  exact h

/-- Items and commas, up to the brace that closes them. -/
theorem scan_items {items : List String} {tss : List (List Token)} (h : List.Forall₂ Reads items tss)
    (rest : List Char) :
    scan [] (", ".toList.intercalate (items.map String.toList) ++ '\x7d' :: rest) =
      [comma].intercalate tss ++ closing :: scan [] rest := by
  induction h with
  | nil => rfl
  | @cons item ts items tss hitem hitems ih =>
    cases hitems with
    | nil =>
      rw [List.map_singleton, List.intercalate_singleton, List.intercalate_singleton, hitem _ _ rfl]
      rfl
    | cons hnext hrest =>
      rw [List.map_cons, List.map_cons, List.intercalate_cons_cons, List.intercalate_cons_cons,
        List.append_assoc, List.append_assoc]
      change scan [] (_ ++ ',' :: ' ' :: _) = _
      rw [hitem _ _ rfl, List.append_assoc, List.append_assoc, ← ih]
      rfl

theorem reads_braced {items : List String} {tss : List (List Token)} (h : List.Forall₂ Reads items tss) :
    Reads (braced items) (listed tss) := by
  intro c rest _
  rw [braced, String.toList_append, String.toList_append, String.toList_intercalate, List.append_assoc,
    List.append_assoc]
  change scan [] ('\x7b' :: (_ ++ '\x7d' :: c :: rest)) = _
  rw [scan_separator rfl, scan_items h, listed, List.append_assoc]
  rfl

/-- A line of an initializer of `n` rows. -/
def rowLine (n : ℕ) (x : String × ℕ) : String :=
  (if x.2 = 0 then "\x7b" else " ") ++ x.1 ++ (if x.2 + 1 = n then "\x7d;" else ",")

theorem bracedRows_eq (rows : List String) : bracedRows rows = rows.zipIdx.map (rowLine rows.length) := rfl

theorem scan_rowLine {row : String} {ts : List Token} (h : Reads row ts) (n k : ℕ) (rest : List Char) :
    scan [] ((rowLine n (row, k)).toList ++ rest) =
      (if k = 0 then [opening] else []) ++ (ts ++
        ((if k + 1 = n then [closing, semicolon] else [comma]) ++ scan [] rest)) := by
  have hclose : scan [] (row.toList ++ ((if k + 1 = n then "\x7d;" else ",").toList ++ rest)) =
      ts ++ ((if k + 1 = n then [closing, semicolon] else [comma]) ++ scan [] rest) := by
    split_ifs
    · exact h '\x7d' (';' :: rest) rfl
    · exact h ',' rest rfl
  rw [rowLine, String.toList_append, String.toList_append, List.append_assoc, List.append_assoc, ← hclose]
  dsimp only
  by_cases hk : k = 0
  · rw [if_pos hk, if_pos hk]
    exact scan_separator (c := '\x7b') rfl [] _
  · rw [if_neg hk, if_neg hk]
    exact scan_separator (c := ' ') rfl [] _

/-- The rows from one on, each on a line. Only the first of all rows opens the braces, and the last closes
them. -/
theorem scan_rows {rows : List String} {tss : List (List Token)} (h : List.Forall₂ Reads rows tss)
    (hne : rows ≠ []) {n k : ℕ} (hn : k + rows.length = n) :
    scan [] ("\n".toList.intercalate (((rows.zipIdx k).map (rowLine n)).map String.toList)) =
      (if k = 0 then [opening] else []) ++ ([comma].intercalate tss ++ [closing, semicolon]) := by
  induction h generalizing k with
  | nil => exact absurd rfl hne
  | @cons row ts rows tss hrow hrows ih =>
    rw [List.zipIdx_cons, List.map_cons, List.map_cons]
    cases hrows with
    | nil =>
      have hlast : k + 1 = n := hn
      have hline := scan_rowLine hrow n k []
      rw [List.append_nil, if_pos hlast] at hline
      rw [List.zipIdx_nil, List.map_nil, List.map_nil, List.intercalate_singleton, List.intercalate_singleton,
        hline]
      rfl
    | @cons next ts' rows tss hnext hrows =>
      have hmore : k + 1 ≠ n := by
        simp only [List.length_cons] at hn
        omega
      have hrest := ih (List.cons_ne_nil _ _) (k := k + 1) (by simp only [List.length_cons] at hn ⊢; omega)
      rw [if_neg (Nat.succ_ne_zero k), List.nil_append] at hrest
      rw [List.zipIdx_cons, List.map_cons, List.map_cons] at hrest ⊢
      rw [List.intercalate_cons_cons, List.intercalate_cons_cons, List.append_assoc, List.append_assoc,
        scan_rowLine hrow, if_neg hmore, scan_newline, hrest]
      simp only [List.append_assoc]

end Scanning

section Declarations

def Row.tokens (places : ℕ) : Row Float → List Token
  | flat xs => listed (xs.map fun x => [.word (Scientific.literal x places)])
  | stacked rows => listed (rows.map fun xs => listed (xs.map fun x => [.word (Scientific.literal x places)]))

theorem reads_literals (places : ℕ) (xs : List Float) :
    Reads (braced (xs.map (Scientific.literal · places)))
      (listed (xs.map fun x => [.word (Scientific.literal x places)])) :=
  reads_braced (reads_map fun x _ => (Scientific.word_literal x places).reads)

theorem Row.reads (places : ℕ) (row : Row Float) : Reads (row.text places) (row.tokens places) := by
  cases row with
  | flat xs => exact reads_literals places xs
  | stacked rows => exact reads_braced (reads_map fun xs _ => reads_literals places xs)

/-- The name of a declaration and its extents, before the initializer. -/
theorem scan_equals {s : String} (h : Word s) (cs : List Char) :
    scan [] (s.toList ++ (" = ".toList ++ cs)) = [.word s, .word "="] ++ scan [] cs :=
  h.reads ' ' ('=' :: ' ' :: cs) rfl

variable {name : String} (places : ℕ)

/-- The line that a table begins with. -/
theorem scan_tableHead (hname : Word name) (dims : List ℕ) (cs : List Char) :
    scan [] (("static const" ++ " double " ++ name ++ extents dims ++ " = \\").toList ++ cs) =
      ["static", "const", "double", name ++ extents dims, "="].map Token.word ++ scan [] cs := by
  have hword : Word (name ++ extents dims) := hname.append (unbroken_extents dims)
  have htext : ("static const" ++ " double " ++ name ++ extents dims ++ " = \\").toList ++ cs =
      "static const double ".toList ++ ((name ++ extents dims).toList ++ (" = ".toList ++ '\\' :: cs)) := by
    simp only [String.toList_append, List.append_assoc]
    rfl
  calc scan [] (("static const" ++ " double " ++ name ++ extents dims ++ " = \\").toList ++ cs)
    _ = ["static", "const", "double"].map Token.word ++
          scan [] ((name ++ extents dims).toList ++ (" = ".toList ++ '\\' :: cs)) := by
        rw [htext]
        rfl
    _ = _ := by
        rw [scan_equals hword, scan_separator (c := '\\') rfl]
        rfl

theorem tokens_table (hname : Word name) (dims : List ℕ) {rows : List (Row Float)} (hne : rows ≠ []) :
    (Statement.table "static const" name dims rows).tokens places =
      declaration ["static", "const"] name dims (listed (rows.map (Row.tokens places))) := by
  have hreads : List.Forall₂ Reads (rows.map (Row.text places)) (rows.map (Row.tokens places)) :=
    reads_map fun row _ => row.reads places
  have hne' : rows.map (Row.text places) ≠ [] := fun h => hne (List.map_eq_nil_iff.mp h)
  have hrows := scan_rows hreads hne' (k := 0) (Nat.zero_add _)
  rw [← bracedRows_eq] at hrows
  have hlines : bracedRows (rows.map (Row.text places)) ≠ [] := by
    rw [bracedRows_eq]
    simpa using hne
  obtain ⟨first, rest, hcons⟩ := List.exists_cons_of_ne_nil hlines
  rw [Statement.tokens, Statement.lines, String.toList_intercalate]
  rw [hcons] at hrows ⊢
  rw [List.map_cons, List.map_cons, List.intercalate_cons_cons, List.append_assoc, ← List.map_cons,
    scan_tableHead hname, scan_newline, hrows]
  simp [declaration, listed]

/-- A table without rows has no initializer, not even an empty one. -/
theorem tokens_table_nil (hname : Word name) (dims : List ℕ) :
    (Statement.table "static const" name dims []).tokens places =
      ["static", "const", "double", name ++ extents dims, "="].map Token.word := by
  have hhead := scan_tableHead hname dims []
  rw [List.append_nil] at hhead
  rw [Statement.tokens, Statement.lines, List.map_nil, bracedRows_eq, List.zipIdx_nil, List.map_nil,
    String.toList_intercalate, List.map_singleton, List.intercalate_singleton, hhead]
  rfl

theorem tokens_array (hname : Word name) {names : List String} (h : ∀ s ∈ names, Word s) :
    (Statement.array name (names.map fun s => .expr (.name s))).tokens places =
      declaration ["const"] name [names.length] (listed (names.map fun s => [.word s])) := by
  have hword : Word (name ++ extents [names.length]) := hname.append (unbroken_extents _)
  have hreads : Reads (braced names) (listed (names.map fun s => [.word s])) := by
    apply reads_braced
    rw [List.forall₂_map_right_iff, List.forall₂_same]
    exact fun s hs => (h s hs).reads
  have htexts : (names.map fun s => (.expr (.name s) : Initial Float)).map (Initial.text places) = names := by
    rw [List.map_map]
    exact List.map_id' names
  have htext : ("const double " ++ name ++ extents [names.length] ++ " = " ++ braced names ++ ";").toList =
      "const double ".toList ++ ((name ++ extents [names.length]).toList ++
        (" = ".toList ++ ((braced names).toList ++ [';']))) := by
    simp only [String.toList_append, List.append_assoc]
    rfl
  rw [Statement.tokens, Statement.lines, htexts, List.length_map, String.toList_intercalate,
    List.map_singleton, List.intercalate_singleton, htext]
  calc scan [] ("const double ".toList ++ ((name ++ extents [names.length]).toList ++
        (" = ".toList ++ ((braced names).toList ++ [';']))))
    _ = ["const", "double"].map Token.word ++ scan [] ((name ++ extents [names.length]).toList ++
          (" = ".toList ++ ((braced names).toList ++ [';']))) := rfl
    _ = _ := by
        have hend : scan [] [';'] = [semicolon] := rfl
        rw [scan_equals hword, hreads ';' [] rfl, hend]
        simp [declaration]

example : (Statement.array "G_0" [.expr (.name "G0_0"), .expr (.name "G0_1")]).tokens 3 =
    declaration ["const"] "G_0" [2] [.opening, .word "G0_0", .comma, .word "G0_1", .closing] := rfl

end Declarations
end Code
end Variational
