import Mathlib.LinearAlgebra.Matrix.Trace
import TensorCalculus.Proofs.DirectLoops
import TensorCalculus.Proofs.ExactScalar
import TensorCalculus.Space.Euclidean

/-!
# The algebra of operators

An operator is read row by row, so what is read are the entries of a matrix (`Represents`). Over scalars
that form a commutative semiring the loops on operators list the entries of the product of matrices, of
a matrix applied to a vector and of the transposed matrix, and the trace is that of the matrix. Every
operator represents some matrix, and the computed identity represents the identity matrix. So the laws of
matrices are laws of operators (`operators_form_category`).
-/

namespace TensorCalculus

namespace Operator

/-! ### What is read of an operator -/

section Read
variable {α : Type} {v w n : Nat} {a x : Nat → Checked α}

/-- The first `n` components can be read. -/
def Readable (n : Nat) (read : Nat → Checked α) : Prop := ∀ k < n, ∃ z, read k = .ok z

/-- The components of an operator with that many rows and columns can be counted and read. -/
structure IsOperator (rows columns : Nat) (a : Nat → Checked α) : Prop where
  readable : Readable (rows * columns) a
  fits : rows * columns < Count.limit

/-- What is read row by row are the entries of the matrix. -/
def Represents (a : Nat → Checked α) (A : Matrix (Fin v) (Fin w) α) : Prop :=
  ∀ (r : Fin v) (c : Fin w), a (r * w + c) = .ok (A r c)

/-- What is read are the entries of the vector. -/
def RepresentsVector (x : Nat → Checked α) (X : Fin n → α) : Prop := ∀ k : Fin n, x k = .ok (X k)

/-- The entries of a matrix, row by row. -/
def entries (A : Matrix (Fin v) (Fin w) α) : List α :=
  List.ofFn fun k : Fin (v * w) => A k.divNat k.modNat

theorem Readable.exists_represents (h : Readable n x) : ∃ X : Fin n → α, RepresentsVector x X := by
  choose f hf using h
  exact ⟨fun k => f k k.2, fun k => hf k k.2⟩

theorem IsOperator.exists_represents (h : IsOperator v w a) :
    ∃ A : Matrix (Fin v) (Fin w) α, Represents a A := by
  obtain ⟨X, hX⟩ := h.readable.exists_represents
  exact ⟨fun r c => X ⟨r * w + c, Box.mul_add_lt r.2 c.2⟩, fun r c => hX ⟨r * w + c, Box.mul_add_lt r.2 c.2⟩⟩

theorem readable_entry {xs : List α} (h : xs.length = n) : Readable n (entry xs) := fun k hk =>
  ⟨xs[k], entry_eq_ok.2 (List.getElem?_eq_getElem (h ▸ hk))⟩

theorem representsVector_entry (X : Fin n → α) : RepresentsVector (entry (List.ofFn X)) X := by
  intro k
  rw [entry_eq_ok, List.getElem?_ofFn, dif_pos k.2]

theorem RepresentsVector.tabulate_eq {X : Fin n → α} (h : RepresentsVector x X) :
    tabulate n x = .ok (List.ofFn X) := by
  rw [tabulate, mapM_eq_ok, ← List.map_coe_finRange_eq_range, List.ofFn_eq_map, List.forall₂_map_left_iff,
    List.forall₂_map_right_iff, List.forall₂_same]
  exact fun k _ => h k

theorem represents_entry (A : Matrix (Fin v) (Fin w) α) : Represents (entry (entries A)) A := by
  intro r c
  have hlt := Box.mul_add_lt r.2 c.2
  have hrow : (⟨r * w + c, hlt⟩ : Fin (v * w)).divNat = r := Fin.ext (Box.mul_add_div c.2)
  have hcolumn : (⟨r * w + c, hlt⟩ : Fin (v * w)).modNat = c := Fin.ext (Box.mul_add_mod c.2)
  have hentry := representsVector_entry (fun k : Fin (v * w) => A k.divNat k.modNat) ⟨r * w + c, hlt⟩
  dsimp only at hentry
  rwa [hrow, hcolumn] at hentry

theorem Represents.tabulate_eq {A : Matrix (Fin v) (Fin w) α} (h : Represents a A) :
    tabulate (v * w) a = .ok (entries A) := by
  refine RepresentsVector.tabulate_eq fun k => ?_
  have hk : (k : Nat) = k.divNat * w + k.modNat := (Nat.div_add_mod' k w).symm
  rw [hk]
  exact h k.divNat k.modNat

/-- A tensor on a product of two spaces is an operator. -/
theorem isOperator_of_inhabits {m : Memory α} {V W : Space} {t : Tensor α}
    (h : t.Inhabits m (.product [V, W])) (hv : V.dimension = .ok v) (hw : W.dimension = .ok w) :
    IsOperator v w (m.read t.storage) := by
  have hcount := h.count_pair hv hw
  exact ⟨fun k hk => Memory.read_ok h.valid (hcount ▸ hk), hcount ▸ h.count_lt⟩

end Read

/-! ### The loops are operations on matrices -/

section Matrices
variable {α : Type} [Scalar α] [Scalar.IsUnitalCommSemiring α] {v w y n : Nat} {a b x : Nat → Checked α}
  {A : Matrix (Fin v) (Fin w) α} {B : Matrix (Fin w) (Fin y) α}

attribute [local instance] Scalar.commSemiring

theorem sumBelow_eq_sum {f : Nat → Checked α} {X : Fin n → α} (h : RepresentsVector f X) :
    sumBelow n f = .ok (∑ k, X k) := by
  rw [sumBelow, ← List.map_coe_finRange_eq_range, List.foldlM_map,
    foldlM_eq_sum (g := X) fun k _ sum => by rw [h k]; rfl, zero_add, Fin.sum_univ_def]

theorem sumBelow_eq_dotProduct {f g : Nat → Checked α} {X Y : Fin n → α} (hf : RepresentsVector f X)
    (hg : RepresentsVector g Y) : sumBelow n (fun j => do return (← f j) * (← g j)) = .ok (X ⬝ᵥ Y) := by
  refine sumBelow_eq_sum (X := fun j => X j * Y j) fun j => ?_
  rw [hf j, hg j]
  rfl

theorem Represents.compose_eq (ha : Represents a A) (hb : Represents b B) (hvw : v * w < Count.limit)
    (hwy : w * y < Count.limit) (hvy : v * y < Count.limit) :
    compose v w y a b = .ok (entries (A * B)) := by
  let g := fun values => entry (entries (A * B)) (Box.position values [v, y])
  have hg : ∀ r < v, ∀ c < y, g [r, c] =
      sumBelow w fun j => do return (← a (r * w + j)) * (← b (j * y + c)) := by
    intro r hr c hc
    have hsum := sumBelow_eq_dotProduct (f := fun j => a (r * w + j)) (g := fun j => b (j * y + c))
      (ha ⟨r, hr⟩) (fun j => hb j ⟨c, hc⟩)
    rw [hsum, ← Matrix.mul_apply', ← represents_entry (A * B), ← Box.position_pair]
  rw [compose_eq_mapM hvw hwy hvy hg, Box.mapM_position, Box.size_pair]
  exact (represents_entry (A * B)).tabulate_eq

theorem Represents.apply_eq {X : Fin w → α} (ha : Represents a A) (hx : RepresentsVector x X)
    (hvw : v * w < Count.limit) : apply v w a x = .ok (List.ofFn (A.mulVec X)) := by
  let g := fun values => entry (List.ofFn (A.mulVec X)) (Box.position values [v])
  have hg : ∀ r < v, g [r] = sumBelow w fun j => do return (← a (r * w + j)) * (← x j) := by
    intro r hr
    have hsum := sumBelow_eq_dotProduct (f := fun j => a (r * w + j)) (ha ⟨r, hr⟩) hx
    have hentry := representsVector_entry (A.mulVec X) ⟨r, hr⟩
    have hposition : Box.position [r] [v] = r := by simp [Box.position]
    rw [hsum]
    show entry (List.ofFn (A.mulVec X)) (Box.position [r] [v]) = _
    rw [hposition, hentry]
    rfl
  rw [apply_eq_mapM hvw hg, Box.mapM_position, Box.size_cons, Box.size_nil, Nat.mul_one]
  exact (representsVector_entry (A.mulVec X)).tabulate_eq

omit [Scalar α] [Scalar.IsUnitalCommSemiring α] in
theorem Represents.transpose_eq (ha : Represents a A) (hvw : v * w < Count.limit) :
    transpose v w a = .ok (entries A.transpose) := by
  let g := fun values => entry (entries A.transpose) (Box.position values [w, v])
  have hg : ∀ r < v, ∀ c < w, g [c, r] = a (r * w + c) := by
    intro r hr c hc
    rw [ha ⟨r, hr⟩ ⟨c, hc⟩, ← A.transpose_apply, ← represents_entry A.transpose, ← Box.position_pair]
  rw [transpose_eq_mapM hvw hg, Box.mapM_position, Box.size_pair]
  exact (represents_entry A.transpose).tabulate_eq

theorem Represents.trace_eq {A : Matrix (Fin n) (Fin n) α} (ha : Represents a A)
    (hfit : n * n < Count.limit) : trace n a = .ok A.trace := by
  rw [trace_eq_sumBelow hfit]
  exact sumBelow_eq_sum fun k => ha k k

omit [Scalar.IsUnitalCommSemiring α] in
/-- The computed components of the identity are those of the identity matrix. -/
theorem represents_identity {m : Memory α} {id : Storage α}
    (h : Tensor.procedural (.operators n n) (Generator.kronecker n) = .ok id) :
    n * n < Count.limit ∧ Represents (m.read id) (1 : Matrix (Fin n) (Fin n) α) := by
  obtain ⟨count, hcount, h⟩ := bind_eq_ok.1 h
  cases h
  rw [Space.operators, Space.dimension_pair rfl rfl] at hcount
  obtain ⟨hsize, hlimit⟩ := Count.product_eq_ok hcount
  rw [Box.size_pair] at hsize
  subst hsize
  refine ⟨hlimit, fun r c => ?_⟩
  have hpos : 0 < n := Nat.zero_lt_of_lt c.2
  rw [Memory.read, if_pos (Box.mul_add_lt r.2 c.2), Generator.kronecker, Count.div_of_pos hpos, ok_bind,
    Count.mod_of_pos hpos, ok_bind, Box.mul_add_div c.2, Box.mul_add_mod c.2, Matrix.one_apply]
  simp only [Fin.ext_iff]
  rfl

end Matrices

/-! ### The laws -/

section Laws
variable {α : Type} [Scalar α] [Scalar.IsUnitalCommSemiring α]

/-- Operators form a category with transposes and traces: over a commutative semiring the composition of
operators is associative, acts on vectors one after the other and has the computed identity as its unit, the
transpose reverses it, and the trace does not depend on the order of its two operands. The components of what
is composed have to be countable. -/
theorem operators_form_category (m : Memory α) :
    (∀ (v w y u : Nat) (a b c : Nat → Checked α), IsOperator v w a → IsOperator w y b → IsOperator y u c →
      v * y < Count.limit → w * u < Count.limit → v * u < Count.limit →
      ∃ ab bc abc, compose v w y a b = .ok ab ∧ compose w y u b c = .ok bc ∧
        compose v y u (entry ab) c = .ok abc ∧ compose v w u a (entry bc) = .ok abc) ∧
    (∀ (v w y : Nat) (a b x : Nat → Checked α), IsOperator v w a → IsOperator w y b → Readable y x →
      v * y < Count.limit →
      ∃ ab bx abx, compose v w y a b = .ok ab ∧ apply w y b x = .ok bx ∧
        apply v y (entry ab) x = .ok abx ∧ apply v w a (entry bx) = .ok abx) ∧
    (∀ (n : Nat) (id : Storage α), Tensor.procedural (.operators n n) (Generator.kronecker n) = .ok id →
      (∀ w a, IsOperator n w a → ∃ xs, tabulate (n * w) a = .ok xs ∧
        compose n n w (m.read id) a = .ok xs) ∧
      (∀ v a, IsOperator v n a → ∃ xs, tabulate (v * n) a = .ok xs ∧
        compose v n n a (m.read id) = .ok xs) ∧
      ∀ x, Readable n x → ∃ xs, tabulate n x = .ok xs ∧ apply n n (m.read id) x = .ok xs) ∧
    (∀ (v w : Nat) (a : Nat → Checked α), IsOperator v w a →
      ∃ xs xs', tabulate (v * w) a = .ok xs ∧ transpose v w a = .ok xs' ∧
        transpose w v (entry xs') = .ok xs) ∧
    (∀ (v w y : Nat) (a b : Nat → Checked α), IsOperator v w a → IsOperator w y b → v * y < Count.limit →
      ∃ ab a' b' ab', compose v w y a b = .ok ab ∧ transpose v w a = .ok a' ∧ transpose w y b = .ok b' ∧
        transpose v y (entry ab) = .ok ab' ∧ compose y w v (entry b') (entry a') = .ok ab') ∧
    (∀ (v w : Nat) (a b : Nat → Checked α), IsOperator v w a → IsOperator w v b → v * v < Count.limit →
      w * w < Count.limit → ∃ ab ba t, compose v w v a b = .ok ab ∧ compose w v w b a = .ok ba ∧
        trace v (entry ab) = .ok t ∧ trace w (entry ba) = .ok t) ∧
    ∀ (n : Nat) (a : Nat → Checked α), IsOperator n n a →
      ∃ a' t, transpose n n a = .ok a' ∧ trace n a = .ok t ∧ trace n (entry a') = .ok t := by
  let _ : CommSemiring α := Scalar.commSemiring α
  refine ⟨?_, ?_, ?_, ?_, ?_, ?_, ?_⟩
  · intro v w y u a b c ha hb hc hvy hwu hvu
    obtain ⟨A, hA⟩ := ha.exists_represents
    obtain ⟨B, hB⟩ := hb.exists_represents
    obtain ⟨C, hC⟩ := hc.exists_represents
    refine ⟨_, _, _, hA.compose_eq hB ha.fits hb.fits hvy, hB.compose_eq hC hb.fits hc.fits hwu,
      (represents_entry (A * B)).compose_eq hC hvy hc.fits hvu, ?_⟩
    rw [Matrix.mul_assoc]
    exact hA.compose_eq (represents_entry (B * C)) ha.fits hwu hvu
  · intro v w y a b x ha hb hx hvy
    obtain ⟨A, hA⟩ := ha.exists_represents
    obtain ⟨B, hB⟩ := hb.exists_represents
    obtain ⟨X, hX⟩ := hx.exists_represents
    refine ⟨_, _, _, hA.compose_eq hB ha.fits hb.fits hvy, hB.apply_eq hX hb.fits,
      (represents_entry (A * B)).apply_eq hX hvy, ?_⟩
    rw [← Matrix.mulVec_mulVec]
    exact hA.apply_eq (representsVector_entry (B.mulVec X)) ha.fits
  · intro n id hid
    obtain ⟨hn, hI⟩ := represents_identity (m := m) hid
    refine ⟨fun w a ha => ?_, fun v a ha => ?_, fun x hx => ?_⟩
    · obtain ⟨A, hA⟩ := ha.exists_represents
      refine ⟨_, hA.tabulate_eq, ?_⟩
      rw [hI.compose_eq hA hn ha.fits ha.fits, Matrix.one_mul]
    · obtain ⟨A, hA⟩ := ha.exists_represents
      refine ⟨_, hA.tabulate_eq, ?_⟩
      rw [hA.compose_eq hI ha.fits hn ha.fits, Matrix.mul_one]
    · obtain ⟨X, hX⟩ := hx.exists_represents
      refine ⟨_, hX.tabulate_eq, ?_⟩
      rw [hI.apply_eq hX hn, Matrix.one_mulVec]
  · intro v w a ha
    obtain ⟨A, hA⟩ := ha.exists_represents
    refine ⟨_, _, hA.tabulate_eq, hA.transpose_eq ha.fits, ?_⟩
    exact (represents_entry A.transpose).transpose_eq (Nat.mul_comm v w ▸ ha.fits)
  · intro v w y a b ha hb hvy
    obtain ⟨A, hA⟩ := ha.exists_represents
    obtain ⟨B, hB⟩ := hb.exists_represents
    refine ⟨_, _, _, _, hA.compose_eq hB ha.fits hb.fits hvy, hA.transpose_eq ha.fits,
      hB.transpose_eq hb.fits, (represents_entry (A * B)).transpose_eq hvy, ?_⟩
    rw [Matrix.transpose_mul]
    exact (represents_entry B.transpose).compose_eq (represents_entry A.transpose)
      (Nat.mul_comm w y ▸ hb.fits) (Nat.mul_comm v w ▸ ha.fits) (Nat.mul_comm v y ▸ hvy)
  · intro v w a b ha hb hv hw
    obtain ⟨A, hA⟩ := ha.exists_represents
    obtain ⟨B, hB⟩ := hb.exists_represents
    refine ⟨_, _, _, hA.compose_eq hB ha.fits hb.fits hv, hB.compose_eq hA hb.fits ha.fits hw,
      (represents_entry (A * B)).trace_eq hv, ?_⟩
    rw [Matrix.trace_mul_comm]
    exact (represents_entry (B * A)).trace_eq hw
  · intro n a ha
    obtain ⟨A, hA⟩ := ha.exists_represents
    refine ⟨_, _, hA.transpose_eq ha.fits, hA.trace_eq ha.fits, ?_⟩
    rw [← Matrix.trace_transpose]
    exact (represents_entry A.transpose).trace_eq ha.fits

end Laws

/-- An operator that is stored in memory is composed with others of 3 × 2 and 2 × 1 components. -/
theorem operators_form_category_rectangular : ∃ (m : Memory Int) (V W : Space) (t : Tensor Int)
    (id : Storage Int) (b c : Nat → Checked Int), t.Inhabits m (.product [V, W]) ∧ V.dimension = .ok 2 ∧
    W.dimension = .ok 3 ∧ IsOperator 3 2 b ∧ IsOperator 2 1 c ∧
    Tensor.procedural (.operators 2 2) (Generator.kronecker 2) = .ok id ∧
    (∃ ab bc abc, compose 2 3 2 (m.read t.storage) b = .ok ab ∧ compose 3 2 1 b c = .ok bc ∧
      compose 2 2 1 (entry ab) c = .ok abc ∧ compose 2 3 1 (m.read t.storage) (entry bc) = .ok abc) ∧
    (∃ ab bx abx, compose 2 3 2 (m.read t.storage) b = .ok ab ∧ apply 3 2 b c = .ok bx ∧
      apply 2 2 (entry ab) c = .ok abx ∧ apply 2 3 (m.read t.storage) (entry bx) = .ok abx) ∧
    (∃ xs, tabulate 6 (m.read t.storage) = .ok xs ∧ compose 2 2 3 (m.read id) (m.read t.storage) = .ok xs) ∧
    (∃ xs xs', tabulate 6 (m.read t.storage) = .ok xs ∧ transpose 2 3 (m.read t.storage) = .ok xs' ∧
      transpose 3 2 (entry xs') = .ok xs) ∧
    (∃ ab a' b' ab', compose 2 3 2 (m.read t.storage) b = .ok ab ∧
      transpose 2 3 (m.read t.storage) = .ok a' ∧ transpose 3 2 b = .ok b' ∧
      transpose 2 2 (entry ab) = .ok ab' ∧ compose 2 3 2 (entry b') (entry a') = .ok ab') ∧
    ∃ ab ba x, compose 2 3 2 (m.read t.storage) b = .ok ab ∧ compose 3 2 3 b (m.read t.storage) = .ok ba ∧
      trace 2 (entry ab) = .ok x ∧ trace 3 (entry ba) = .ok x := by
  let V : Space := .based (.named "Real") 2 (.named "Plane") false (.named "Standard")
  let W : Space := .based (.named "Real") 3 (.named "Room") false (.named "Standard")
  let m : Memory Int := ⟨8, #[1, 2, 3, 4, 5, 6]⟩
  let t : {t : Tensor Int // Tensor.on (.product [V, W.dual]) (.readOnly ⟨0, 6, true⟩) = .ok t} := ⟨_, rfl⟩
  let id : {id : Storage Int // Tensor.procedural (.operators 2 2) (Generator.kronecker 2) = .ok id} := ⟨_, rfl⟩
  have ht : t.1.Inhabits m (.product [V, W.dual]) :=
    ⟨t.2, rfl, by simp [Storage.Valid, t, m], show 6 < Count.limit by decide⟩
  have ha : IsOperator 2 3 (m.read t.1.storage) := isOperator_of_inhabits ht rfl rfl
  have hb : IsOperator 3 2 (entry [1, 0, -2, 1, 1, 7]) := ⟨readable_entry rfl, by decide⟩
  have hc : IsOperator 2 1 (entry [3, -5]) := ⟨readable_entry rfl, by decide⟩
  obtain ⟨hassoc, happly, hunit, hinvolution, htranspose, htrace, -⟩ := operators_form_category m
  exact ⟨m, V, W.dual, t.1, id.1, _, _, ht, rfl, rfl, hb, hc, id.2,
    hassoc 2 3 2 1 _ _ _ ha hb hc (by decide) (by decide) (by decide),
    happly 2 3 2 _ _ _ ha hb hc.readable (by decide), (hunit 2 _ id.2).1 3 _ ha, hinvolution 2 3 _ ha,
    htranspose 2 3 2 _ _ ha hb (by decide), htrace 2 3 _ _ ha hb (by decide) (by decide)⟩

end Operator

end TensorCalculus
