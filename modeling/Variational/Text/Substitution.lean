/-! Replacing a text inside of another one. -/
namespace Variational.Substitution

/-- Put a text in the place of each occurrence of another one. After an occurrence its other characters are skipped. -/
def substitute (old new : List Char) : (skip : Nat) → List Char → List Char
  | _, [] => []
  | skip + 1, _ :: cs => substitute old new skip cs
  | 0, c :: cs =>
    if old.isPrefixOf (c :: cs) then new ++ substitute old new (old.length - 1) cs
    else c :: substitute old new 0 cs

def replace (s old new : String) : String := String.ofList (substitute old.toList new.toList 0 s.toList)

variable {old new xs : List Char} {d : Char}

theorem substitute_append_of_notMem (hd : d ∉ xs) (ys : List Char) :
    substitute (d :: old) new 0 (xs ++ ys) = xs ++ substitute (d :: old) new 0 ys := by
  induction xs with
  | nil => rfl
  | cons x xs ih =>
    obtain ⟨hne, hxs⟩ := not_or.mp (mt List.mem_cons.mpr hd)
    rw [List.cons_append, substitute, if_neg (by simp [hne]), ih hxs, List.cons_append]

/-- A text without the first character of the other one is left as it is. -/
theorem substitute_of_notMem (hd : d ∉ xs) : substitute (d :: old) new 0 xs = xs := by
  have happend : substitute (d :: old) new 0 (xs ++ []) = xs ++ substitute (d :: old) new 0 [] :=
    substitute_append_of_notMem hd []
  rwa [List.append_nil, substitute, List.append_nil] at happend

/-- One occurrence at the start. -/
theorem substitute_start (hd : d ∉ xs) : substitute (d :: old) new 0 (d :: old ++ xs) = new ++ xs := by
  have hskip (ys : List Char) (n : Nat) (hn : n = ys.length) :
      substitute (d :: old) new n (ys ++ xs) = substitute (d :: old) new 0 xs := by
    subst hn
    induction ys with
    | nil => rfl
    | cons y ys ih => exact ih
  have hprefix : (d :: old).isPrefixOf (d :: old ++ xs) = true := by simp
  rw [List.cons_append] at hprefix ⊢
  rw [substitute, if_pos hprefix, hskip old _ (by simp), substitute_of_notMem hd]

end Variational.Substitution
