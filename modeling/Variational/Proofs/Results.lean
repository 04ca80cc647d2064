import Mathlib
import Variational.Error

/-! Rules for computations that may fail: when a sequence of steps succeeds, and with what, and when it does
not fail over a number that is out of range. -/
namespace Variational.Result

variable {β γ : Type}

theorem bind_eq_ok {x : Result β} {f : β → Result γ} {c : γ} :
    (x >>= f) = .ok c ↔ ∃ b, x = .ok b ∧ f b = .ok c := by
  cases x <;> simp [bind, Except.bind]

theorem ok_bind (b : β) (f : β → Result γ) : ((.ok b : Result β) >>= f) = f b := rfl

theorem pure_eq_ok {b c : β} : (pure b : Result β) = .ok c ↔ b = c := by
  simp [pure, Except.pure]

theorem toOption_eq_some {x : Result β} {b : β} : x.toOption = some b ↔ x = .ok b := by
  cases x <;> simp [Except.toOption]

theorem inRange_eq_ok {o : Option β} {b : β} : inRange o = .ok b ↔ o = some b := by
  cases o <;> simp

theorem mapM_eq_ok {f : β → Result γ} {xs : List β} {ys : List γ} :
    xs.mapM f = .ok ys ↔ List.Forall₂ (fun x y => f x = .ok y) xs ys := by
  induction xs generalizing ys with
  | nil =>
    rw [List.mapM_nil, pure_eq_ok, List.forall₂_nil_left_iff]
    exact eq_comm
  | cons x xs ih =>
    simp only [List.mapM_cons, bind_eq_ok, pure_eq_ok, ih, List.forall₂_cons_left_iff]
    constructor
    · rintro ⟨y, hy, zs, hzs, rfl⟩
      exact ⟨y, zs, hy, hzs, rfl⟩
    · rintro ⟨y, zs, hy, hzs, rfl⟩
      exact ⟨y, hy, zs, hzs, rfl⟩

theorem mapM_of_forall {f : β → Result γ} {g : β → γ} {xs : List β} (h : ∀ x ∈ xs, f x = .ok (g x)) :
    xs.mapM f = .ok (xs.map g) := by
  rw [mapM_eq_ok, List.forall₂_map_right_iff, List.forall₂_same]
  exact h

theorem foldlM_of_forall {f : γ → β → Result γ} {g : γ → β → γ} {xs : List β}
    (h : ∀ x ∈ xs, ∀ c, f c x = .ok (g c x)) (c : γ) : xs.foldlM f c = .ok (xs.foldl g c) := by
  induction xs generalizing c with
  | nil => rfl
  | cons x xs ih =>
    rw [List.forall_mem_cons] at h
    rw [List.foldlM_cons, h.1 c, ok_bind, ih h.2, List.foldl_cons]

theorem getElem?_of_forall₂ {R : β → γ → Prop} {xs : List β} {ys : List γ} (h : List.Forall₂ R xs ys)
    {n : ℕ} {x : β} (hx : xs[n]? = some x) : ∃ y, ys[n]? = some y ∧ R x y := by
  induction h generalizing n with
  | nil => simp at hx
  | cons hxy _ ih =>
    cases n with
    | zero =>
      simp only [List.getElem?_cons_zero, Option.some.injEq] at hx
      subst hx
      exact ⟨_, rfl, hxy⟩
    | succ n => exact ih hx

theorem exists_of_forall₂ {R : β → γ → Prop} {xs : List β} {ys : List γ} (h : List.Forall₂ R xs ys)
    {x : β} (hx : x ∈ xs) : ∃ y ∈ ys, R x y := by
  obtain ⟨n, hn⟩ := List.mem_iff_getElem?.mp hx
  obtain ⟨y, hy, hxy⟩ := getElem?_of_forall₂ h hn
  exact ⟨y, List.mem_of_getElem? hy, hxy⟩

theorem of_mem_zipWith {δ : Type} {f : β → γ → δ} {xs : List β} {ys : List γ} {z : δ}
    (h : z ∈ List.zipWith f xs ys) : ∃ x ∈ xs, ∃ y ∈ ys, f x y = z := by
  rw [← List.map_uncurry_zip_eq_zipWith] at h
  obtain ⟨⟨x, y⟩, hmem, rfl⟩ := List.mem_map.mp h
  exact ⟨x, (List.of_mem_zip hmem).1, y, (List.of_mem_zip hmem).2, rfl⟩

/-- What stands at a place of the results came from what stands there in the list. -/
theorem getElem?_of_mapM {f : β → Result γ} {xs : List β} {ys : List γ} (h : xs.mapM f = .ok ys)
    {n : ℕ} {x : β} (hx : xs[n]? = some x) : ∃ y, ys[n]? = some y ∧ f x = .ok y :=
  getElem?_of_forall₂ (mapM_eq_ok.mp h) hx

theorem length_of_mapM {f : β → Result γ} {xs : List β} {ys : List γ} (h : xs.mapM f = .ok ys) :
    ys.length = xs.length := (mapM_eq_ok.mp h).length_eq.symm

theorem exists_mapM {f : β → Result γ} {xs : List β} :
    (∃ ys, xs.mapM f = .ok ys) ↔ ∀ x ∈ xs, ∃ y, f x = .ok y := by
  constructor
  · rintro ⟨ys, h⟩ x hx
    obtain ⟨y, -, hy⟩ := exists_of_forall₂ (mapM_eq_ok.mp h) hx
    exact ⟨y, hy⟩
  · intro h
    induction xs with
    | nil => exact ⟨[], rfl⟩
    | cons x xs ih =>
      rw [List.forall_mem_cons] at h
      obtain ⟨y, hy⟩ := h.1
      obtain ⟨ys, hys⟩ := ih h.2
      exact ⟨y :: ys, mapM_eq_ok.mpr (.cons hy (mapM_eq_ok.mp hys))⟩

/-- The computation gives a value with the postcondition, or it fails, but not over a number that is out of
range. -/
def Safe (post : β → Prop) : Result β → Prop
  | .ok b => post b
  | .error e => e ≠ .outOfRange

namespace Safe

theorem pure {post : β → Prop} {b : β} (h : post b) : Safe post (pure b : Result β) := h

theorem inRange {post : β → Prop} {o : Option β} {b : β} (ho : o = some b) (h : post b) :
    Safe post (inRange o) := by
  subst ho
  exact h

theorem bind {mid : β → Prop} {post : γ → Prop} {x : Result β} {f : β → Result γ} (hx : Safe mid x)
    (hf : ∀ b, mid b → Safe post (f b)) : Safe post (x >>= f) := by
  cases x with
  | error e => exact hx
  | ok b => exact hf b hx

theorem mono {post post' : β → Prop} {x : Result β} (hx : Safe post x) (h : ∀ b, post b → post' b) :
    Safe post' x := by
  cases x with
  | error e => exact hx
  | ok b => exact h b hx

/-- The postcondition may speak of the value that the computation gives. -/
theorem result {post : β → Prop} {x : Result β} (hx : Safe post x) :
    Safe (fun b => x = .ok b ∧ post b) x := by
  cases x with
  | error e => exact hx
  | ok b => exact ⟨rfl, hx⟩

theorem of_eq_ok {post : β → Prop} {x : Result β} (hx : Safe post x) {b : β} (h : x = .ok b) :
    post b := by
  subst h
  exact hx

theorem ne_outOfRange {post : β → Prop} {x : Result β} (hx : Safe post x) : x ≠ .error .outOfRange := by
  rintro rfl
  exact hx rfl

/-- One value for each, all of them with the postcondition. -/
theorem mapM_each {post : γ → Prop} {f : β → Result γ} {xs : List β} (h : ∀ x ∈ xs, Safe post (f x)) :
    Safe (fun ys => ys.length = xs.length ∧ ∀ y ∈ ys, post y) (xs.mapM f) := by
  induction xs with
  | nil =>
    rw [List.mapM_nil]
    exact .pure ⟨rfl, by simp⟩
  | cons x xs ih =>
    rw [List.forall_mem_cons] at h
    rw [List.mapM_cons]
    refine h.1.bind fun y hy => (ih h.2).bind fun ys hys => .pure ⟨?_, ?_⟩
    · rw [List.length_cons, hys.1, List.length_cons]
    · exact List.forall_mem_cons.mpr ⟨hy, hys.2⟩

theorem mapM_all {post : γ → Prop} {f : β → Result γ} {xs : List β} (h : ∀ x ∈ xs, Safe post (f x)) :
    Safe (∀ y ∈ ·, post y) (xs.mapM f) := (mapM_each h).mono fun _ hys => hys.2

end Safe

/-- The two computations give the same, which is no error over a number that is out of range. -/
def Same (x y : Result β) : Prop := x = y ∧ y ≠ .error .outOfRange

namespace Same

theorem of_safe {post : β → Prop} {x : Result β} (h : Safe post x) : Same x x := ⟨rfl, h.ne_outOfRange⟩

theorem pure (b : β) : Same (pure b : Result β) (pure b) := ⟨rfl, nofun⟩

theorem bind {x y : Result β} {f g : β → Result γ} (hx : Same x y)
    (hf : ∀ b, y = .ok b → Same (f b) (g b)) : Same (x >>= f) (y >>= g) := by
  obtain ⟨rfl, hsafe⟩ := hx
  cases x with
  | error e => exact ⟨rfl, fun h => hsafe (congrArg Except.error (Except.error.inj h))⟩
  | ok b => exact hf b rfl

theorem mapM {f g : β → Result γ} {xs : List β} (h : ∀ x ∈ xs, Same (f x) (g x)) :
    Same (xs.mapM f) (xs.mapM g) := by
  induction xs with
  | nil =>
    rw [List.mapM_nil, List.mapM_nil]
    exact pure []
  | cons x xs ih =>
    rw [List.forall_mem_cons] at h
    rw [List.mapM_cons, List.mapM_cons]
    exact h.1.bind fun y _ => (ih h.2).bind fun ys _ => pure (y :: ys)

end Same

end Variational.Result
