import Mathlib.Data.List.Forall2
import TensorCalculus.Count

/-!
# Computations that may stop

`bind_eq_ok` takes a `do` block apart: it gives a value exactly if each of its steps does. The rest of
the file carries this over to loops over a list (`mapM_eq_ok`, `forM_eq_ok`, `foldlM_congr`), to lifts
between kinds of failure and to the arithmetic of counts.
-/

namespace TensorCalculus

section Except
variable {ε δ α β γ : Type}

@[simp] theorem ok_bind (a : α) (f : α → Except ε β) : (Except.ok a >>= f) = f a := rfl

theorem pure_eq_ok (a : α) : (pure a : Except ε α) = .ok a := rfl

theorem bind_eq_ok {x : Except ε α} {f : α → Except ε β} {b : β} :
    (x >>= f) = .ok b ↔ ∃ a, x = .ok a ∧ f a = .ok b := by
  cases x with
  | error e => exact ⟨nofun, nofun⟩
  | ok a => simp

theorem exists_bind_ok {x : Except ε α} {f : α → Except ε β} {a : α} (hx : x = .ok a)
    (hf : ∃ b, f a = .ok b) : ∃ b, (x >>= f) = .ok b := by
  rwa [hx, ok_bind]

theorem exists_ok_of_isOk {x : Except ε α} (h : x.isOk = true) : ∃ a, x = .ok a := by
  cases x with
  | error e => cases h
  | ok a => exact ⟨a, rfl⟩

@[simp] theorem mapError_eq_ok {x : Except ε α} {f : ε → δ} {a : α} :
    x.mapError f = .ok a ↔ x = .ok a := by
  cases x <;> simp [Except.mapError]

theorem mapM_eq_ok {f : α → Except ε β} {xs : List α} {ys : List β} :
    xs.mapM f = .ok ys ↔ List.Forall₂ (fun x y => f x = .ok y) xs ys := by
  induction xs generalizing ys with
  | nil => cases ys <;> simp [pure_eq_ok]
  | cons x xs ih =>
    simp only [List.mapM_cons, bind_eq_ok, pure_eq_ok, Except.ok.injEq]
    constructor
    · rintro ⟨y, hy, zs, hzs, rfl⟩
      exact .cons hy (ih.1 hzs)
    · rintro (_ | ⟨hy, hys⟩)
      exact ⟨_, hy, _, ih.2 hys, rfl⟩

theorem mapM_congr {f g : α → Except ε β} {xs : List α} (h : ∀ x ∈ xs, f x = g x) :
    xs.mapM f = xs.mapM g := by
  induction xs with
  | nil => rfl
  | cons x xs ih => rw [List.mapM_cons, List.mapM_cons, h x (by simp), ih fun y hy => h y (by simp [hy])]

theorem forall₂_exists_right {R : α → β → Prop} {xs : List α} {ys : List β} (h : List.Forall₂ R xs ys)
    {x : α} (hx : x ∈ xs) : ∃ y ∈ ys, R x y := by
  induction h with
  | nil => cases hx
  | cons hxy _ ih =>
    rcases List.mem_cons.1 hx with rfl | hx
    · exact ⟨_, by simp, hxy⟩
    · obtain ⟨y, hy, hxy⟩ := ih hx
      exact ⟨y, by simp [hy], hxy⟩

theorem forall₂_getElem? {R : α → β → Prop} {xs : List α} {ys : List β} (h : List.Forall₂ R xs ys)
    {k : Nat} {x : α} (hx : xs[k]? = some x) : ∃ y, ys[k]? = some y ∧ R x y := by
  induction h generalizing k with
  | nil => cases hx
  | cons hxy _ ih =>
    cases k with
    | zero =>
      cases hx
      exact ⟨_, rfl, hxy⟩
    | succ k => exact ih hx

/-- A loop over values that are all there. -/
theorem mapM_ok {f : α → Except ε β} {xs : List α} (h : ∀ x ∈ xs, ∃ y, f x = .ok y) :
    ∃ ys, xs.mapM f = .ok ys := by
  induction xs with
  | nil => exact ⟨[], rfl⟩
  | cons x xs ih =>
    obtain ⟨y, hy⟩ := h x (by simp)
    obtain ⟨ys, hys⟩ := ih fun x hx => h x (by simp [hx])
    exact ⟨y :: ys, by rw [List.mapM_cons, hy, hys]; rfl⟩

/-- A loop stops at the first value that is not there. -/
theorem mapM_append_error {f : α → Except ε β} {before after : List α} {x : α} {e : ε}
    (hbefore : ∀ y ∈ before, ∃ z, f y = .ok z) (hx : f x = .error e) :
    (before ++ x :: after).mapM f = .error e := by
  obtain ⟨zs, hzs⟩ := mapM_ok hbefore
  rw [List.mapM_append, hzs, ok_bind, List.mapM_cons, hx]
  rfl

theorem forM_eq_ok {f : α → Except ε Unit} {xs : List α} :
    xs.forM f = .ok () ↔ ∀ x ∈ xs, f x = .ok () := by
  induction xs with
  | nil => simp [pure_eq_ok]
  | cons x xs ih =>
    show (f x >>= fun _ => xs.forM f) = .ok () ↔ _
    rw [bind_eq_ok, List.forall_mem_cons, ← ih]
    exact ⟨fun ⟨_, hx, hxs⟩ => ⟨hx, hxs⟩, fun ⟨hx, hxs⟩ => ⟨_, hx, hxs⟩⟩

theorem foldlM_congr {f g : β → α → Except ε β} {xs : List α} (b : β)
    (h : ∀ x ∈ xs, ∀ b, f b x = g b x) : xs.foldlM f b = xs.foldlM g b := by
  induction xs generalizing b with
  | nil => rfl
  | cons x xs ih =>
    rw [List.foldlM_cons, List.foldlM_cons, h x (by simp)]
    congr 1
    funext c
    exact ih c fun y hy => h y (by simp [hy])

/-- A loop whose steps agree as long as an invariant holds. -/
theorem foldlM_congr_of_invariant {f g : β → α → Except ε β} {xs : List α} (P : β → Prop)
    (hagree : ∀ x ∈ xs, ∀ b, P b → f b x = g b x) (hstep : ∀ x ∈ xs, ∀ b c, P b → g b x = .ok c → P c)
    {b : β} (hb : P b) : xs.foldlM f b = xs.foldlM g b := by
  induction xs generalizing b with
  | nil => rfl
  | cons x xs ih =>
    rw [List.foldlM_cons, List.foldlM_cons, hagree x (by simp) b hb]
    cases hc : g b x with
    | error e => rfl
    | ok c =>
      exact ih (fun y hy => hagree y (by simp [hy])) (fun y hy => hstep y (by simp [hy]))
        (hstep x (by simp) b c hb hc)

theorem foldlM_invariant {f : β → α → Except ε β} {xs : List α} (P : β → Prop)
    (hstep : ∀ x ∈ xs, ∀ b c, P b → f b x = .ok c → P c) {b c : β} (hb : P b)
    (h : xs.foldlM f b = .ok c) : P c := by
  induction xs generalizing b with
  | nil =>
    cases h
    exact hb
  | cons x xs ih =>
    rw [List.foldlM_cons] at h
    obtain ⟨b', hb', h⟩ := bind_eq_ok.1 h
    exact ih (fun y hy => hstep y (by simp [hy])) (hstep x (by simp) b b' hb hb') h

theorem foldlM_ok_of_invariant {f : β → α → Except ε β} {xs : List α} (P : β → Prop)
    (hstep : ∀ x ∈ xs, ∀ b, P b → ∃ c, f b x = .ok c ∧ P c) {b : β} (hb : P b) :
    ∃ c, xs.foldlM f b = .ok c := by
  induction xs generalizing b with
  | nil => exact ⟨b, rfl⟩
  | cons x xs ih =>
    obtain ⟨c, hc, hinvariant⟩ := hstep x (by simp) b hb
    rw [List.foldlM_cons, hc]
    exact ih (fun y hy => hstep y (by simp [hy])) hinvariant

/-- A loop whose steps all give a value gives one. -/
theorem foldlM_ok {f : β → α → Except ε β} {xs : List α} (b : β)
    (h : ∀ x ∈ xs, ∀ b, ∃ c, f b x = .ok c) : ∃ c, xs.foldlM f b = .ok c := by
  refine foldlM_ok_of_invariant (fun _ => True) (fun x hx b _ => ?_) trivial
  obtain ⟨c, hc⟩ := h x hx b
  exact ⟨c, hc, trivial⟩

end Except

/-- The first element with a property. -/
theorem exists_first {α : Type} {P : α → Prop} {xs : List α} (h : ∃ x ∈ xs, P x) :
    ∃ before x after, xs = before ++ x :: after ∧ P x ∧ ∀ y ∈ before, ¬P y := by
  classical
  have hfind : (xs.find? fun x => decide (P x)).isSome = true := by simpa using h
  obtain ⟨y, hy⟩ := Option.isSome_iff_exists.1 hfind
  obtain ⟨hPy, before, after, hsplit, hfirst⟩ := List.find?_eq_some_iff_append.1 hy
  exact ⟨before, y, after, hsplit, of_decide_eq_true hPy, fun z hz hPz => by simpa [hPz] using hfirst z hz⟩

section Lift
variable {ε α : Type}

@[simp] theorem liftFault_eq_ok {x : Except Fault α} {a : α} :
    (liftM x : Except (Failure ε) α) = .ok a ↔ x = .ok a :=
  mapError_eq_ok

@[simp] theorem liftError_eq_ok {x : Except ε α} {a : α} :
    (liftM x : Except (Failure ε) α) = .ok a ↔ x = .ok a :=
  mapError_eq_ok

end Lift

namespace Count

theorem check_eq_ok {n r : Nat} : check n = .ok r ↔ n < limit ∧ n = r := by
  by_cases h : n < limit <;> simp [check, h]

theorem add_eq_ok {a b r : Nat} : add a b = .ok r ↔ a + b < limit ∧ a + b = r := check_eq_ok

theorem mul_eq_ok {a b r : Nat} : mul a b = .ok r ↔ a * b < limit ∧ a * b = r := check_eq_ok

theorem sub_eq_ok {a b r : Nat} : sub a b = .ok r ↔ b ≤ a ∧ a - b = r := by
  by_cases h : b ≤ a <;> simp [sub, h]

theorem div_of_pos {a b : Nat} (h : 0 < b) : div a b = .ok (a / b) := if_neg (by omega)

theorem mod_of_pos {a b : Nat} (h : 0 < b) : mod a b = .ok (a % b) := if_neg (by omega)

theorem add_of_lt {a b : Nat} (h : a + b < limit) : add a b = .ok (a + b) := add_eq_ok.2 ⟨h, rfl⟩

theorem mul_of_lt {a b : Nat} (h : a * b < limit) : mul a b = .ok (a * b) := mul_eq_ok.2 ⟨h, rfl⟩

end Count

theorem entry_eq_ok {α : Type} {xs : List α} {k : Nat} {x : α} :
    entry xs k = .ok x ↔ xs[k]? = some x := by
  unfold entry
  split <;> simp_all

end TensorCalculus
