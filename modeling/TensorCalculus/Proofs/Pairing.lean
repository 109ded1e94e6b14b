import TensorCalculus.Proofs.OnSpace
import TensorCalculus.Tensor.Value

/-!
# The natural pairing

A tensor is paired with one on the dual space by writing the same symbols on both and contracting all of
them. Contracting every index visits the stored components in their order, so the pairing is the dot
product of the two arrays, added up from zero from the left (`Tensor.pair_eq_dot`).
-/

namespace TensorCalculus

/-- A sum over all indices of an array goes through its components in order. -/
theorem sumOver_position {α : Type} [Scalar α] {is : List Index} {dims : List Nat} (hne : is ≠ [])
    (hnodup : is.Nodup) (hlength : is.length = dims.length) (f : Nat → Checked α) (env : Assignment) :
    sumOver is dims (fun env => f (Box.position (is.map env) dims)) env =
      Operator.sumBelow (Box.size dims) f := by
  rw [sumOver, if_neg (by simpa using hne), Box.multiIndices_eq, List.foldlM_map, Operator.sumBelow]
  refine foldlM_congr 0 fun k hk sum => ?_
  have hk := List.mem_range.1 hk
  have hmem : Box.multiIndex dims k ∈ Box.multiIndices dims := by
    rw [Box.multiIndices_eq]
    exact List.mem_map_of_mem (List.mem_range.2 hk)
  rw [← map_extend_of_mem_multiIndices hnodup hlength hmem env, Box.position_multiIndex hk]

namespace Tensor

theorem length_firstSymbols (n : Nat) : (firstSymbols n).length = n := by simp [firstSymbols]

theorem nodup_firstSymbols {n : Nat} (h : n ≤ maxRank) : (firstSymbols n).Nodup := by
  refine List.Nodup.map_on ?_ List.nodup_range
  intro a ha b hb hab
  have hsize : maxRank < UInt32.size := by decide
  rw [List.mem_range] at ha hb
  have hnat := congrArg (fun i : Index => i.symbol.toNat) hab
  simpa [Nat.mod_eq_of_lt (show a < UInt32.size by omega),
    Nat.mod_eq_of_lt (show b < UInt32.size by omega)] using hnat

variable {α : Type} [Scalar α] {m : Memory α} {x y : Tensor α} {dims : List Nat}

theorem forall₂_dimension_dual {factors : List Concept}
    (h : List.Forall₂ (fun c d => c.dimension = .ok d) factors dims) :
    List.Forall₂ (fun c d => c.dimension = .ok d) (factors.map Concept.dual) dims := by
  refine List.forall₂_map_left_iff.2 (h.imp fun c d hd => ?_)
  exact (Concept.dimension_of_isDualOf (Concept.isDualOf_iff.2 rfl)).1 hd

theorem dualWhereShared_boundIndices {is : List Index} {factors : List Concept} (hnodup : is.Nodup) :
    Expr.DualWhereShared (boundIndices is factors dims) (boundIndices is (factors.map Concept.dual) dims) := by
  intro b hb c hc hindex
  obtain ⟨p, hp, hfactor, -⟩ := mem_boundIndices hb
  obtain ⟨q, hq, hfactor', -⟩ := mem_boundIndices hc
  obtain rfl : p = q := by
    obtain ⟨hlp, hp⟩ := List.getElem?_eq_some_iff.1 hp
    obtain ⟨hlq, hq⟩ := List.getElem?_eq_some_iff.1 hq
    exact hnodup.getElem_inj_iff.1 (hp.trans (hindex.trans hq.symm))
  rw [List.getElem?_map, hfactor] at hfactor'
  exact Concept.isDualOf_iff.2 (Option.some.inj hfactor')

theorem pair_eq (hx : x.storage.Fills m x.factors) (hy : y.storage.Fills m y.factors)
    (hdims : List.Forall₂ (fun c d => c.dimension = .ok d) x.factors dims)
    (hdual : y.factors = x.factors.map Concept.dual) (hne : x.factors ≠ [])
    (hrank : x.factors.length ≤ maxRank) :
    pair m x y = liftM (Operator.sumBelow (Box.size dims) fun k => do
      return (← m.read x.storage k) * (← m.read y.storage k)) := by
  let is := firstSymbols x.factors.length
  have hlength : is.length = x.factors.length := length_firstSymbols _
  have hnodup : is.Nodup := nodup_firstSymbols hrank
  have hlength' : is.length = y.factors.length := by rw [hdual, List.length_map, hlength]
  obtain ⟨e, he⟩ := exists_written hx hdims hlength (hlength ▸ hrank) hnodup
  obtain ⟨f, hf⟩ := exists_written hy (hdual ▸ forall₂_dimension_dual hdims) hlength' (hlength ▸ hrank) hnodup
  -- every index of either side is contracted
  have hall : ∀ {t : Tensor α} {g : Expr α}, t.Written m is dims g → without g.free is = [] := by
    intro t g hg
    refine List.eq_nil_iff_forall_not_mem.2 fun b hb => ?_
    obtain ⟨hb, hnot⟩ := mem_without.1 hb
    exact hnot (hg.symbols_eq ▸ index_mem_symbols hb)
  have hshared : Expr.DualWhereShared e.free f.free := by
    rw [he.free_eq, hf.free_eq, hdual]
    exact dualWhereShared_boundIndices hnodup
  obtain ⟨p, hp, -, hfree, hcomponent⟩ := he.mul hf hshared (by rw [hall he, hall hf]; decide)
  rw [hall he, hall hf] at hfree
  have hcommon : Occurrence.common is is = is := List.filter_eq_self.2 fun i hi => by simpa using hi
  have hextents : is.map (extentOf e.free) = dims := by
    rw [← he.symbols_eq, map_extentOf he.evaluable.nodup fun b hb => hb, he.dims_eq]
  have hsum := hcomponent (fun _ => 0) (by rw [hfree]; nofun)
  rw [hcommon, hextents] at hsum
  have hempty : is ≠ [] := fun h => hne (List.length_eq_zero_iff.1 (by rw [← hlength, h]; rfl))
  rw [Expr.componentAt, hfree] at hsum
  unfold pair
  dsimp only
  rw [liftError_eq_ok.2 he.indexed_eq, ok_bind, liftError_eq_ok.2 hf.indexed_eq, ok_bind, liftError_eq_ok.2 hp,
    ok_bind, Expr.value, if_pos (by rw [Expr.rank, hfree]; rfl)]
  have hdot := sumOver_position hempty hnodup (hlength.trans hdims.length_eq)
    (fun k => (do return (← m.read x.storage k) * (← m.read y.storage k) : Checked α)) fun _ => 0
  exact congrArg liftM (hsum.trans hdot)

theorem foldlM_eq_dot {f g : Nat → Checked α} {ks : List Nat} {xs ys : List α}
    (hxs : List.Forall₂ (fun k x => f k = .ok x) ks xs) (hys : List.Forall₂ (fun k y => g k = .ok y) ks ys)
    (acc : α) : ks.foldlM (fun sum k => do return sum + (← (do return (← f k) * (← g k)))) acc =
      (.ok ((List.zipWith (· * ·) xs ys).foldl (· + ·) acc) : Checked α) := by
  induction hxs generalizing ys acc with
  | nil => rfl
  | cons hx _ ih =>
    cases hys with
    | cons hy hys =>
      rw [List.foldlM_cons, hx, ok_bind, hy]
      exact ih hys _

theorem sumBelow_eq_dot {f g : Nat → Checked α} {n : Nat} {xs ys : List α}
    (hxs : (List.range n).mapM f = .ok xs) (hys : (List.range n).mapM g = .ok ys) :
    Operator.sumBelow n (fun k => do return (← f k) * (← g k)) =
      .ok ((List.zipWith (· * ·) xs ys).foldl (· + ·) 0) :=
  foldlM_eq_dot (mapM_eq_ok.1 hxs) (mapM_eq_ok.1 hys) 0

/-- Both orders of a pairing, for the components that are stored. -/
theorem Inhabits.pair_components {C : Space} (hx : x.Inhabits m C) (hy : y.Inhabits m C.dual)
    (hrank : ∀ ss, C = .product ss → ss.length ≤ maxRank) {xs ys : List α}
    (hxs : (List.range x.storage.count).mapM (m.read x.storage) = .ok xs)
    (hys : (List.range x.storage.count).mapM (m.read y.storage) = .ok ys) :
    pair m x y = .ok ((List.zipWith (· * ·) xs ys).foldl (· + ·) 0) ∧
      pair m y x = .ok ((List.zipWith (· * ·) ys xs).foldl (· + ·) 0) := by
  have hdual : y.factors = x.factors.map Concept.dual :=
    Except.ok.inj (hy.factors_eq.symm.trans (Space.factors_dual hx.factors_eq))
  have hdual' : x.factors = y.factors.map Concept.dual := by
    rw [hdual, List.map_map]
    exact (List.map_id'' Concept.dual_dual x.factors).symm
  obtain ⟨dims, hdims, hsize⟩ := Space.dimension_of_factors hx.factors_eq hx.dimension_eq
  have hdims' : List.Forall₂ (fun c d => c.dimension = .ok d) y.factors dims :=
    hdual ▸ forall₂_dimension_dual hdims
  have hne := (Space.generated_of_factors hx.factors_eq).1
  have hle := Space.length_factors_le hx.factors_eq hrank
  have hne' : y.factors ≠ [] := by simpa [hdual] using hne
  have hle' : y.factors.length ≤ maxRank := by simpa [hdual] using hle
  rw [← hsize] at hxs hys
  rw [pair_eq hx.fills hy.fills hdims hdual hne hle, pair_eq hy.fills hx.fills hdims' hdual' hne' hle',
    sumBelow_eq_dot hxs hys, sumBelow_eq_dot hys hxs]
  exact ⟨rfl, rfl⟩

omit [Scalar α] in
theorem mapM_readRegion {r : Region} {xs : List α} (hcount : r.count = xs.length)
    (h : ∀ k < xs.length, m.cells[r.start + k]? = xs[k]?) :
    (List.range xs.length).mapM (m.readRegion r) = .ok xs := by
  refine mapM_eq_ok.2 (List.forall₂_iff_get.2 ⟨List.length_range, fun k _ hk => ?_⟩)
  refine Memory.readRegion_eq_ok.2 ⟨?_, ?_⟩
  · rw [List.get_eq_getElem, List.getElem_range, hcount]
    exact hk
  · rw [List.get_eq_getElem, List.getElem_range, h k hk, List.get_eq_getElem, List.getElem?_eq_getElem hk]

/-- Values are paired as the tensors that they are once their components are put into memory. -/
theorem exists_stored_pair {C : Space} {fs : List Concept} (hC : C.factors = .ok fs) {v w : Value α}
    (hv : v.space = C) (hw : w.space = C.dual) (hdim : C.dimension = .ok v.components.length)
    (hlength : w.components.length = v.components.length) (hlimit : v.components.length < Count.limit) :
    ∃ m x y, v.pair w = pair m x y ∧ x.Inhabits m C ∧ y.Inhabits m C.dual ∧
      x.storage.count = v.components.length ∧
      (List.range v.components.length).mapM (m.read x.storage) = .ok v.components ∧
      (List.range v.components.length).mapM (m.read y.storage) = .ok w.components := by
  let first := v.store ⟨1, #[]⟩
  let second := w.store first.1
  let x : Tensor α := ⟨fs, first.2⟩
  let y : Tensor α := ⟨fs.map Concept.dual, second.2⟩
  have hx : Tensor.on v.space first.2 = .ok x := by
    rw [Tensor.on, hv, hC]
    rfl
  have hy : Tensor.on w.space second.2 = .ok y := by
    rw [Tensor.on, hw, Space.factors_dual hC]
    rfl
  have hstart : first.1.cells.size = v.components.length := by simp [first, Value.store, Memory.allocate]
  have hcells : second.1.cells = (v.components ++ w.components).toArray := by
    simp [first, second, Value.store, Memory.allocate]
  refine ⟨second.1, x, y, ?_, ⟨hv ▸ hx, hdim, ?_, hlimit⟩, ⟨hw ▸ hy, ?_, ?_, ?_⟩, rfl, ?_, ?_⟩
  · have hlift : (liftM (Tensor.on v.space first.2) : Outcome ExprError (Tensor α)) = .ok x :=
      mapError_eq_ok.2 hx
    have hlift' : (liftM (Tensor.on w.space second.2) : Outcome ExprError (Tensor α)) = .ok y :=
      mapError_eq_ok.2 hy
    show (do pair second.1 (← liftM (Tensor.on v.space first.2)) (← liftM (Tensor.on w.space second.2))) = _
    rw [hlift, ok_bind, hlift', ok_bind]
  · show 0 + v.components.length ≤ second.1.cells.size
    simp [hcells]
  · show C.dual.dimension = .ok w.components.length
    rw [Space.dimension_dual, hdim, hlength]
  · show first.1.cells.size + w.components.length ≤ second.1.cells.size
    simp [hstart, hcells]
  · show w.components.length < Count.limit
    rwa [hlength]
  · refine mapM_readRegion rfl fun k hk => ?_
    show second.1.cells[0 + k]? = _
    rw [hcells, List.getElem?_toArray, Nat.zero_add, List.getElem?_append_left hk]
  · rw [← hlength]
    refine mapM_readRegion rfl fun k _ => ?_
    show second.1.cells[first.1.cells.size + k]? = _
    rw [hcells, hstart, List.getElem?_toArray, List.getElem?_append_right (Nat.le_add_right _ _),
      Nat.add_sub_cancel_left]

/-- The pairing of a tensor with one on the dual space is the dot product of their components, in the
order they are stored in; it does not matter which of the two comes first if products commute. Values with
these components have the same pairing. -/
theorem pair_eq_dot {C : Space} (hx : x.Inhabits m C) (hy : y.Inhabits m C.dual)
    (hrank : ∀ ss, C = .product ss → ss.length ≤ maxRank) :
    ∃ xs ys, (List.range x.storage.count).mapM (m.read x.storage) = .ok xs ∧
      (List.range x.storage.count).mapM (m.read y.storage) = .ok ys ∧
      pair m x y = .ok ((List.zipWith (· * ·) xs ys).foldl (· + ·) 0) ∧
      ((∀ a b : α, a * b = b * a) → pair m y x = pair m x y) ∧
      ∀ v w : Value α, v.space = C → w.space = C.dual → v.components = xs → w.components = ys →
        v.pair w = pair m x y := by
  have hcount : y.storage.count = x.storage.count := by
    have hdim := hy.dimension_eq
    rw [Space.dimension_dual, hx.dimension_eq] at hdim
    exact (Except.ok.inj hdim).symm
  obtain ⟨xs, hxs⟩ := mapM_ok fun k hk => Memory.read_ok hx.valid (List.mem_range.1 hk : k < x.storage.count)
  obtain ⟨ys, hys⟩ := mapM_ok fun k hk => Memory.read_ok hy.valid (List.mem_range.1 hk : k < y.storage.count)
  rw [hcount] at hys
  obtain ⟨hpair, hpair'⟩ := hx.pair_components hy hrank hxs hys
  refine ⟨xs, ys, hxs, hys, hpair, fun hcomm => ?_, ?_⟩
  · rw [hpair, hpair', List.zipWith_comm_of_comm hcomm]
  · rintro v w hv hw rfl rfl
    have hlength : v.components.length = x.storage.count := by
      rw [← (mapM_eq_ok.1 hxs).length_eq, List.length_range]
    have hlength' : w.components.length = v.components.length := by
      rw [← (mapM_eq_ok.1 hys).length_eq, List.length_range, hlength]
    obtain ⟨m', x', y', heq, hx', hy', hcount', hxs', hys'⟩ := exists_stored_pair hx.factors_eq hv hw
      (hlength ▸ hx.dimension_eq) hlength' (hlength ▸ hx.count_lt)
    rw [← hcount'] at hxs' hys'
    rw [heq, (hx'.pair_components hy' hrank hxs' hys').1, hpair]

/-- A tensor on a nested product of a plane is paired with one on the dual space. -/
theorem pair_eq_dot_nested : ∃ (C : Space) (m : Memory (Binary .double)) (x y : Tensor (Binary .double)),
    (∃ V W : Space, C = .product [V, .product [W, V]]) ∧ x.Inhabits m C ∧ y.Inhabits m C.dual ∧
      (∀ ss, C = .product ss → ss.length ≤ maxRank) ∧ x.storage.count = 8 ∧
      ∃ xs ys, (List.range 8).mapM (m.read x.storage) = .ok xs ∧ (List.range 8).mapM (m.read y.storage) = .ok ys ∧
        pair m x y = .ok ((List.zipWith (· * ·) xs ys).foldl (· + ·) 0) := by
  let V : Space := .based (.named "Real") 2 (.named "Plane") false (.named "Standard")
  let C : Space := .product [V, .product [V.dual, V]]
  let m : Memory (Binary .double) := ⟨8, ((List.range 8).map fun k => .ofInt k).toArray⟩
  let x : {x : Tensor (Binary .double) // Tensor.on C (.readOnly ⟨0, 8, true⟩) = .ok x} := ⟨_, rfl⟩
  let y : {y : Tensor (Binary .double) // Tensor.on C.dual (.computed 8 fun k => .ok (.ofInt k.value)) = .ok y} :=
    ⟨_, rfl⟩
  have hx : x.1.Inhabits m C := ⟨x.2, rfl, by simp [Storage.Valid, m, x], show 8 < Count.limit by decide⟩
  have hy : y.1.Inhabits m C.dual := ⟨y.2, rfl, fun k _ => ⟨_, rfl⟩, show 8 < Count.limit by decide⟩
  have hrank : ∀ ss, C = .product ss → ss.length ≤ maxRank := by
    intro ss hss
    rw [← Space.product.inj hss]
    exact show 2 ≤ maxRank by decide
  obtain ⟨xs, ys, hxs, hys, hpair, -, -⟩ := pair_eq_dot hx hy hrank
  exact ⟨C, m, x.1, y.1, ⟨V, V.dual, rfl⟩, hx, hy, hrank, rfl, xs, ys, hxs, hys, hpair⟩

end Tensor
end TensorCalculus
