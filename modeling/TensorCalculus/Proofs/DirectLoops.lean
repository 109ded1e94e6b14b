import TensorCalculus.Proofs.OnSpace
import TensorCalculus.Proofs.Refusal
import TensorCalculus.Tensor.Operator

/-!
# Direct loops and index notation

The loops on operators work out flat positions by hand. Row by row these are the positions of a box, so the
loops list what a function of rows and columns gives (`compose_eq_mapM`, `apply_eq_mapM`,
`transpose_eq_mapM`), and nothing in them overflows, divides by zero or reads out of range. The components
of the expressions in index notation are such functions, with the same sums in the same order
(`Tensor.direct_loops_agree`).
-/

namespace TensorCalculus

/-! ### The loops, by rows and columns -/

namespace Box
variable {r c rows columns : Nat}

theorem mul_add_lt (hr : r < rows) (hc : c < columns) : r * columns + c < rows * columns := by
  have hle := Nat.mul_le_mul_right columns (show r + 1 ≤ rows from hr)
  rw [Nat.add_mul, Nat.one_mul] at hle
  omega

theorem div_mod_lt {k : Nat} (h : k < rows * columns) :
    0 < columns ∧ k / columns < rows ∧ k % columns < columns := by
  have hpos : 0 < columns := Nat.pos_of_ne_zero fun hzero => by simp [hzero] at h
  exact ⟨hpos, Nat.div_lt_of_lt_mul (Nat.mul_comm rows columns ▸ h), Nat.mod_lt k hpos⟩

theorem mul_add_div (hc : c < columns) : (r * columns + c) / columns = r := by
  rw [Nat.mul_comm, Nat.mul_add_div (Nat.zero_lt_of_lt hc), Nat.div_eq_of_lt hc, Nat.add_zero]

theorem mul_add_mod (hc : c < columns) : (r * columns + c) % columns = c := by
  rw [Nat.mul_comm, Nat.mul_add_mod, Nat.mod_eq_of_lt hc]

theorem inBox_pair : InBox [r, c] [rows, columns] ↔ r < rows ∧ c < columns := by
  simp [InBox]

theorem size_pair (rows columns : Nat) : size [rows, columns] = rows * columns := by simp

theorem position_pair (r c rows columns : Nat) : position [r, c] [rows, columns] = r * columns + c := by
  simp [position]

theorem flatten_pair (h : rows * columns < Count.limit) (hr : r < rows) (hc : c < columns) :
    flatten [r, c] [rows, columns] = .ok (r * columns + c) := by
  rw [flatten_eq (inBox_pair.2 ⟨hr, hc⟩) (size_pair rows columns ▸ h.le), position_pair]

theorem multiIndices_pair (rows columns : Nat) : multiIndices [rows, columns] =
    (List.range (rows * columns)).map fun k => [k / columns, k % columns] := by
  rw [multiIndices_eq, size_pair]
  refine List.map_congr_left fun k hk => ?_
  obtain ⟨-, hrow, -⟩ := div_mod_lt (List.mem_range.1 hk)
  simp [multiIndex, Nat.mod_eq_of_lt hrow]

theorem multiIndices_singleton (n : Nat) : multiIndices [n] = (List.range n).map fun k => [k] := by
  rw [multiIndices_eq, size_cons, size_nil, Nat.mul_one]
  refine List.map_congr_left fun k hk => ?_
  simp [multiIndex, Nat.mod_eq_of_lt (List.mem_range.1 hk)]

end Box

namespace Operator
variable {α : Type} [Scalar α] {rows columns inner : Nat} {a b : Nat → Checked α} {g : List Nat → Checked α}

theorem sumBelow_congr {f f' : Nat → Checked α} {n : Nat} (h : ∀ k < n, f k = f' k) :
    sumBelow n f = sumBelow n f' :=
  foldlM_congr 0 fun k hk sum => by rw [h k (List.mem_range.1 hk)]

theorem compose_eq_mapM (hleft : rows * inner < Count.limit) (hright : inner * columns < Count.limit)
    (hfit : rows * columns < Count.limit)
    (hg : ∀ r < rows, ∀ c < columns, g [r, c] =
      sumBelow inner fun j => do return (← a (r * inner + j)) * (← b (j * columns + c))) :
    compose rows inner columns a b = (Box.multiIndices [rows, columns]).mapM g := by
  rw [compose, Count.mul_of_lt hfit, ok_bind, tabulate, Box.multiIndices_pair, List.mapM_map]
  refine mapM_congr fun k hk => ?_
  obtain ⟨hpos, hrow, hcolumn⟩ := Box.div_mod_lt (List.mem_range.1 hk)
  rw [Count.div_of_pos hpos, ok_bind, Count.mod_of_pos hpos, ok_bind, Function.comp_apply,
    hg _ hrow _ hcolumn]
  refine sumBelow_congr fun j hj => ?_
  have hx := Box.mul_add_lt hrow hj
  have hy := Box.mul_add_lt hj hcolumn
  rw [Count.mul_of_lt (by omega), ok_bind, Count.add_of_lt (by omega), ok_bind]
  refine bind_congr fun x => ?_
  rw [Count.mul_of_lt (by omega), ok_bind, Count.add_of_lt (by omega), ok_bind]

theorem apply_eq_mapM (hfit : rows * columns < Count.limit)
    (hg : ∀ r < rows, g [r] = sumBelow columns fun j => do return (← a (r * columns + j)) * (← b j)) :
    apply rows columns a b = (Box.multiIndices [rows]).mapM g := by
  rw [apply, tabulate, Box.multiIndices_singleton, List.mapM_map]
  refine mapM_congr fun r hr => ?_
  have hr := List.mem_range.1 hr
  have hrow : r * columns ≤ rows * columns := Nat.mul_le_mul_right columns hr.le
  rw [Count.mul_of_lt (by omega), ok_bind, Function.comp_apply, hg r hr]
  refine sumBelow_congr fun j hj => ?_
  have hx := Box.mul_add_lt hr hj
  rw [Count.add_of_lt (by omega), ok_bind]

omit [Scalar α] in
theorem transpose_eq_mapM (hfit : rows * columns < Count.limit)
    (hg : ∀ r < rows, ∀ c < columns, g [c, r] = a (r * columns + c)) :
    transpose rows columns a = (Box.multiIndices [columns, rows]).mapM g := by
  rw [transpose, Count.mul_of_lt (Nat.mul_comm rows columns ▸ hfit), ok_bind, tabulate, Box.multiIndices_pair,
    List.mapM_map]
  refine mapM_congr fun k hk => ?_
  obtain ⟨hpos, hcolumn, hrow⟩ := Box.div_mod_lt (List.mem_range.1 hk)
  have hx := (Box.mul_add_lt hrow hcolumn).trans hfit
  rw [Count.div_of_pos hpos, ok_bind, Count.mod_of_pos hpos, ok_bind,
    Count.mul_of_lt (Nat.lt_of_le_of_lt (Nat.le_add_right _ _) hx), ok_bind, Count.add_of_lt hx, ok_bind,
    Function.comp_apply, hg _ hrow _ hcolumn]

theorem trace_eq_sumBelow {n : Nat} (hfit : n * n < Count.limit) :
    trace n a = sumBelow n fun t => a (t * n + t) := by
  refine sumBelow_congr fun t ht => ?_
  have hlt := Box.mul_add_lt ht ht
  rw [Count.mul_of_lt (by omega), ok_bind, Count.add_of_lt (by omega), ok_bind]

theorem sumBelow_ok {n : Nat} (h : ∀ k < n, ∃ x, a k = .ok x) : ∃ x, sumBelow n a = .ok x := by
  refine foldlM_ok 0 fun k hk sum => ?_
  obtain ⟨x, hx⟩ := h k (List.mem_range.1 hk)
  exact exists_bind_ok hx ⟨_, rfl⟩

end Operator

/-! ### Operators with indices written on them -/

namespace Space
variable {V W : Space} {v w : Nat}

theorem dimension_pair (hv : V.dimension = .ok v) (hw : W.dimension = .ok w) :
    (product [V, W]).dimension = Count.product [v, w] := by
  simp only [dimension, dimensionProduct, hv, hw, ok_bind, Count.product, List.foldlM_cons, List.foldlM_nil]
  rfl

theorem factors_pair {fs : List Concept} (h : (product [V, W]).factors = .ok fs) (hv : V.dimension = .ok v)
    (hw : W.dimension = .ok w) : ∃ c d, V.concept = .ok c ∧ W.concept = .ok d ∧ fs = [c, d] ∧
      List.Forall₂ (fun c n => c.dimension = .ok n) [c, d] [v, w] := by
  rcases factors_cases h with ⟨ss, -, hss, hfs, -⟩ | ⟨hne, -⟩
  · obtain rfl := product.inj hss
    obtain ⟨c, hc, hfs⟩ := bind_eq_ok.1 hfs
    obtain ⟨cs, hcs, hfs⟩ := bind_eq_ok.1 hfs
    obtain ⟨d, hd, hcs⟩ := bind_eq_ok.1 hcs
    cases hcs
    cases hfs
    exact ⟨c, d, hc, hd, rfl, .cons (dimension_of_concept hc hv) (.cons (dimension_of_concept hd hw) .nil)⟩
  · exact absurd rfl (hne [V, W])

end Space

theorem sumOver_singleton {α : Type} [Scalar α] (i : Index) (n : Nat) (f : Assignment → Checked α)
    (env : Assignment) : sumOver [i] [n] f env = Operator.sumBelow n fun k => f (env.extend [i] [k]) := by
  rw [sumOver, if_neg (by simp), Box.multiIndices_singleton, List.foldlM_map]
  rfl

namespace Tensor
variable {α : Type} [Scalar α] {m : Memory α} {V W X : Space} {a b x : Tensor α} {v w y : Nat}
  {i j k : Index} {e f : Expr α} {c d d' g : Concept}

omit [Scalar α] in
theorem Inhabits.count_pair (h : a.Inhabits m (.product [V, W])) (hv : V.dimension = .ok v)
    (hw : W.dimension = .ok w) : a.storage.count = v * w := by
  have hproduct := (Space.dimension_pair hv hw).symm.trans h.dimension_eq
  rw [← (Count.product_eq_ok hproduct).1, Box.size_pair]

theorem Inhabits.written_pair (h : a.Inhabits m (.product [V, W])) (hv : V.dimension = .ok v)
    (hw : W.dimension = .ok w) (hij : i ≠ j) : ∃ c d e, V.concept = .ok c ∧ W.concept = .ok d ∧
      a.factors = [c, d] ∧ a.storage.count = v * w ∧ a.Written m [i, j] [v, w] e ∧
      e.free = [⟨i, c, v⟩, ⟨j, d, w⟩] := by
  obtain ⟨c, d, hc, hd, hfactors, hdims⟩ := Space.factors_pair h.factors_eq hv hw
  obtain ⟨e, he⟩ := exists_written h.fills (hfactors ▸ hdims) (show [i, j].length = _ by rw [hfactors]; rfl)
    (show 2 ≤ maxRank by decide) (by simpa using hij)
  refine ⟨c, d, e, hc, hd, hfactors, h.count_pair hv hw, he, ?_⟩
  rw [he.free_eq, hfactors]
  rfl

/-- The product of a matrix with an array whose first symbol is the second of the matrix. -/
theorem Written.mul_first {ks : List Index} {ys : List Nat} {fs : List BoundIndex}
    (he : a.Written m [i, j] [v, w] e) (hefree : e.free = [⟨i, c, v⟩, ⟨j, d, w⟩])
    (hf : b.Written m (j :: ks) (w :: ys) f) (hffree : f.free = ⟨j, d', w⟩ :: fs)
    (hdual : d.isDualOf d' = true) (hij : i ≠ j) (hi : i ∉ ks) (hj : j ∉ ks) (hrank : fs.length < maxRank) :
    ∃ p, e.mul f = .ok p ∧ Expr.Evaluable m p ∧ p.free = ⟨i, c, v⟩ :: fs ∧
      ∀ r qs, r < v → Box.InBox qs ys → p.component m (r :: qs) = Operator.sumBelow w fun t => do
        return (← m.read a.storage (r * w + t)) *
          (← m.read b.storage (t * Box.size ys + Box.position qs ys)) := by
  have hks : symbols fs = ks := by simpa [hffree, symbols] using hf.symbols_eq
  have hys : fs.map BoundIndex.dim = ys := by simpa [hffree] using hf.dims_eq
  have hmem : ∀ h ∈ fs, h.index ∈ ks := fun h hh => hks ▸ index_mem_symbols hh
  have hshared : Expr.DualWhereShared e.free f.free := by
    rw [hefree, hffree]
    intro b hb h hh hindex
    simp only [List.mem_cons, List.not_mem_nil, or_false] at hb hh
    rcases hb with rfl | rfl <;> rcases hh with rfl | hh
    · exact absurd hindex hij
    · exact absurd ((show i = h.index from hindex) ▸ hmem h hh) hi
    · exact hdual
    · exact absurd ((show j = h.index from hindex) ▸ hmem h hh) hj
  have hleft : without e.free (j :: ks) = [⟨i, c, v⟩] := by simp [hefree, without, hij, hi]
  have hright : without f.free [i, j] = fs := by
    have hkept : without fs [i, j] = fs := by
      refine List.filter_eq_self.2 fun h hh => ?_
      have hne : h.index ≠ i ∧ h.index ≠ j :=
        ⟨fun heq => hi (heq ▸ hmem h hh), fun heq => hj (heq ▸ hmem h hh)⟩
      simpa using hne
    rw [hffree]
    simpa [without] using hkept
  have hcommon : Occurrence.common [i, j] (j :: ks) = [j] := by simp [Occurrence.common, hij, hi]
  have hextent : extentOf e.free j = w := by simp [hefree, extentOf, boundOf, hij]
  obtain ⟨p, hp, hevaluable, hfree, hcomponent⟩ := he.mul hf hshared (by
    rw [hleft, hright, List.length_singleton]
    omega)
  rw [hleft, hright, List.singleton_append] at hfree
  refine ⟨p, hp, hevaluable, hfree, fun r qs hr hqs => ?_⟩
  have hbox : Box.InBox (r :: qs) (p.free.map BoundIndex.dim) := by
    rw [hfree, List.map_cons, hys]
    exact .cons hr hqs
  obtain ⟨env, hvalues, henv⟩ := exists_inRange hevaluable.nodup hbox
  have hsum := hcomponent env henv
  rw [hcommon, List.map_singleton, hextent, sumOver_singleton, Expr.componentAt, hvalues] at hsum
  have hsymbols : symbols p.free = i :: ks := by rw [hfree, ← hks]; rfl
  rw [hsymbols, List.map_cons] at hvalues
  obtain ⟨rfl, rfl⟩ := List.cons.inj hvalues
  rw [hsum]
  refine Operator.sumBelow_congr fun t _ => ?_
  have hother : ks.map (Assignment.extend env [j] [t]) = ks.map env := List.map_congr_left fun l hl =>
    Assignment.extend_of_not_mem (by simpa using fun heq : l = j => hj (heq ▸ hl))
  rw [List.map_cons, List.map_cons, List.map_cons, List.map_nil, Assignment.extend_cons_self, hother,
    Assignment.extend_of_not_mem (by simpa using hij), Box.position_pair]
  rfl

theorem Inhabits.trace_eq (h : a.Inhabits m (.product [V, V.dual])) (hv : V.dimension = .ok v) (i : Index) :
    ∃ f x, a.indexed [i, i] = .ok f ∧ f.value m = .ok x ∧
      Operator.trace v (m.read a.storage) = .ok x := by
  have hv' := (Space.dimension_dual V).trans hv
  obtain ⟨c, d, hc, hd, hfactors, hdims⟩ := Space.factors_pair h.factors_eq hv hv'
  have hcd : c.dual = d := by
    rw [Space.concept_dual, hc] at hd
    exact Except.ok.inj hd
  have hcount := h.count_pair hv hv'
  have hrepeated : repeatedSymbols [i, i] = [i] := by simp [repeatedSymbols]
  have hdual : Expr.DualWhereRepeated [i, i] [c, d] := by
    intro p q l x y hlt hp hq hx hy
    have hq := (List.getElem?_eq_some_iff.1 hq).1
    obtain ⟨rfl, rfl⟩ : p = 0 ∧ q = 1 := by
      simp only [List.length_cons, List.length_nil] at hq
      omega
    cases hx
    cases hy
    exact Concept.isDualOf_iff.2 hcd
  obtain ⟨f, hf⟩ := Expr.indexed_ok a.storage (show [i, i].length = [c, d].length from rfl)
    (show 2 ≤ maxRank by decide) hdims (fun l => List.count_le_length) hdual
  obtain ⟨l, rfl, hstorage, hwritten, hl⟩ := Expr.indexed_eq_ok hf
  have hldims : l.dims = [v, v] := (Concept.map_extent hl.dimension).symm.trans (Concept.map_extent hdims)
  have hfree : (Expr.leaf l).free = [] := by
    show l.free = []
    rw [hl.free_eq, hwritten, hrepeated, hldims]
    simp [without, boundIndices]
  have hextent : extentOf (boundIndices [i, i] [c, d] [v, v]) i = v := by
    simp [extentOf, boundOf, boundIndices]
  have hfit : v * v < Count.limit := hcount ▸ h.count_lt
  have hvalue : (Expr.leaf l).value m =
      liftM (Operator.sumBelow v fun t => m.read a.storage (t * v + t)) := by
    have hcomponent := Expr.componentAt_leaf m (fun _ => 0) hl
    rw [Expr.componentAt, hfree, hwritten, hrepeated, hldims, List.map_singleton, hextent, sumOver_singleton,
      hstorage] at hcomponent
    rw [Expr.value, if_pos (by rw [Expr.rank, hfree]; rfl)]
    refine congrArg liftM (hcomponent.trans (Operator.sumBelow_congr fun t ht => ?_))
    rw [List.map_cons, List.map_cons, List.map_nil, Assignment.extend_cons_self,
      Box.flatten_pair hfit ht ht, ok_bind]
  obtain ⟨x, hx⟩ := Operator.sumBelow_ok (a := fun t => m.read a.storage (t * v + t)) fun t ht =>
    Memory.read_ok h.valid (hcount ▸ Box.mul_add_lt ht ht)
  refine ⟨_, x, hfactors ▸ hf, ?_, ?_⟩
  · rw [hvalue, hx]
    rfl
  · rw [Operator.trace_eq_sumBelow hfit, hx]

end Tensor

/-! ### Assigning -/

namespace Tensor
variable {α : Type} [Scalar α] {s : Session α} {V W : Space} {a b : Tensor α} {v w : Nat} {i j : Index}
  {e : Expr α} {c d : Concept}

theorem Written.overlaps_eq {m : Memory α} {written : List Index} {dims : List Nat}
    (h : a.Written m written dims e) (range : MemoryRange) :
    e.overlaps m range = (m.range a.storage).overlaps range := by
  obtain ⟨l, rfl, hstorage, -⟩ := Expr.indexed_eq_ok h.indexed_eq
  rw [← hstorage]
  rfl

/-- A matrix assigned to a target with its symbols exchanged is read there column by column. -/
theorem Written.assign_transposed (he : a.Written s.memory [i, j] [v, w] e)
    (hefree : e.free = [⟨i, c, v⟩, ⟨j, d, w⟩]) (hij : i ≠ j) {region : Region}
    (hstorage : b.storage = .writable region) (hfactors : b.factors = [d, c])
    (hfills : b.storage.Fills s.memory b.factors)
    (hdims : List.Forall₂ (fun c n => c.dimension = .ok n) [d, c] [w, v]) (hm : s.memory.Addressable)
    (hoverlap : (s.memory.range a.storage).overlaps (s.memory.regionRange region) = false) :
    ∃ t s', Target.of region [j, i] b.factors false = .ok t ∧ t.update .assign e s = .ok () s' ∧
      ∀ q < w, ∀ r < v, ∃ x, s'.memory.read b.storage (q * v + r) = .ok x ∧
        s.memory.read a.storage (r * w + q) = .ok x := by
  let t : Target := ⟨region, [⟨j, d, w⟩, ⟨i, c, v⟩], false⟩
  have hnodup : (symbols t.free).Nodup := by simpa [t, symbols] using hij.symm
  have hvalid : region.start + region.count ≤ s.memory.cells.size := by
    have hvalid := hfills.valid
    rwa [hstorage] at hvalid
  have hcount : region.count = w * v := by
    have hcount := hfills.count_eq
    rwa [hstorage, hfactors, Concept.map_extent hdims, Box.size_pair] at hcount
  have hlimit : region.count < Count.limit := by
    have hlt := hfills.count_lt
    rwa [hstorage] at hlt
  have hperm : t.free.Perm e.free := hefree ▸ List.Perm.swap _ _ _
  obtain ⟨s', hupdate, hcomponent⟩ := Target.update_ok .assign (t := t) rfl hnodup
    (by rw [hcount]; exact Box.size_pair w v) hlimit hm hvalid he.evaluable hperm
    (by rw [he.overlaps_eq]; exact hoverlap)
  refine ⟨t, s', ?_, hupdate, fun q hq r hr => ?_⟩
  · rw [hfactors]
    exact Target.of_ok region false (show [j, i].length = [d, c].length from rfl)
      (show 2 ≤ maxRank by decide) hdims hnodup
  have hbox : Box.InBox [q, r] (t.free.map BoundIndex.dim) := Box.inBox_pair.2 ⟨hq, hr⟩
  obtain ⟨env, hvalues, henv⟩ := exists_inRange hnodup hbox
  obtain ⟨old, x, -, hx, hafter⟩ := hcomponent env henv
  obtain ⟨rfl, rfl⟩ : env j = q ∧ env i = r := by simpa [t, symbols] using hvalues
  refine ⟨x, ?_, ?_⟩
  · have hflat : Box.flatten [env j, env i] t.dims = .ok (env j * v + env i) :=
      Box.flatten_pair (hcount ▸ hlimit) hq hr
    rw [Target.componentAt, hvalues, hflat, ok_bind] at hafter
    rw [hstorage]
    exact hafter
  · rw [he.read_eq env fun b hb => henv b (hperm.mem_iff.2 hb)] at hx
    simpa [Box.position_pair] using hx

theorem exists_eval {p : Expr α} (hp : Expr.Evaluable s.memory p) {n : Nat}
    (hn : Count.product (p.free.map BoundIndex.dim) = .ok n) :
    ∃ xs s', (Box.multiIndices (p.free.map BoundIndex.dim)).mapM (p.component s.memory) = .ok xs ∧
      p.eval s = .ok (.evaluated p.free (s.memory.own xs.toArray).2) s' := by
  obtain ⟨xs, s', hxs, heval, -⟩ := Expr.eval_ok hp.toWellFormed hn hp.total
  exact ⟨xs.toList, s', (Expr.components_eq_ok hn).1 hxs, by rwa [Array.toArray_toList]⟩

theorem Written.compose_eq {k : Index} {y n : Nat} {f : Expr α} {d' g : Concept}
    (he : a.Written s.memory [i, j] [v, w] e) (hefree : e.free = [⟨i, c, v⟩, ⟨j, d, w⟩])
    (hf : b.Written s.memory [j, k] [w, y] f) (hffree : f.free = [⟨j, d', w⟩, ⟨k, g, y⟩])
    (hdual : d.isDualOf d' = true) (hij : i ≠ j) (hik : i ≠ k) (hjk : j ≠ k)
    (hleft : v * w < Count.limit) (hright : w * y < Count.limit) (hn : Count.product [v, y] = .ok n) :
    ∃ p xs s', e.mul f = .ok p ∧ symbols p.free = [i, k] ∧
      p.eval s = .ok (.evaluated p.free (s.memory.own xs.toArray).2) s' ∧
      Operator.compose v w y (s.memory.read a.storage) (s.memory.read b.storage) = .ok xs := by
  obtain ⟨p, hp, hevaluable, hfree, hcomponent⟩ := he.mul_first hefree hf hffree hdual hij (by simpa using hik)
    (by simpa using hjk) (show 1 < maxRank by decide)
  have hdims : p.free.map BoundIndex.dim = [v, y] := by rw [hfree]; rfl
  obtain ⟨xs, s', hxs, heval⟩ := exists_eval hevaluable (hdims.symm ▸ hn)
  obtain ⟨hsize, hlimit⟩ := Count.product_eq_ok hn
  refine ⟨p, xs, s', hp, by rw [hfree]; rfl, heval, ?_⟩
  rw [hdims] at hxs
  rw [Operator.compose_eq_mapM hleft hright (Box.size_pair v y ▸ hsize ▸ hlimit) fun r hr q hq => ?_, hxs]
  rw [hcomponent r [q] hr (.cons hq .nil)]
  simp [Box.position]

theorem Written.apply_eq {x : Tensor α} {n : Nat} {f : Expr α} {d' : Concept}
    (he : a.Written s.memory [i, j] [v, w] e) (hefree : e.free = [⟨i, c, v⟩, ⟨j, d, w⟩])
    (hf : x.Written s.memory [j] [w] f) (hffree : f.free = [⟨j, d', w⟩])
    (hdual : d.isDualOf d' = true) (hij : i ≠ j) (hfit : v * w < Count.limit) (hn : Count.product [v] = .ok n) :
    ∃ p xs s', e.mul f = .ok p ∧ symbols p.free = [i] ∧
      p.eval s = .ok (.evaluated p.free (s.memory.own xs.toArray).2) s' ∧
      Operator.apply v w (s.memory.read a.storage) (s.memory.read x.storage) = .ok xs := by
  obtain ⟨p, hp, hevaluable, hfree, hcomponent⟩ := he.mul_first hefree hf hffree hdual hij (by simp) (by simp)
    (show 0 < maxRank by decide)
  have hdims : p.free.map BoundIndex.dim = [v] := by rw [hfree]; rfl
  obtain ⟨xs, s', hxs, heval⟩ := exists_eval hevaluable (hdims.symm ▸ hn)
  refine ⟨p, xs, s', hp, by rw [hfree]; rfl, heval, ?_⟩
  rw [hdims] at hxs
  rw [Operator.apply_eq_mapM hfit fun r hr => ?_, hxs]
  rw [hcomponent r [] hr .nil]
  simp [Box.position]

theorem Written.transpose_eq (he : a.Written s.memory [i, j] [v, w] e)
    (hefree : e.free = [⟨i, c, v⟩, ⟨j, d, w⟩]) (hij : i ≠ j) {region : Region}
    (hstorage : b.storage = .writable region) (hfactors : b.factors = [d, c])
    (hfills : b.storage.Fills s.memory b.factors)
    (hdims : List.Forall₂ (fun c n => c.dimension = .ok n) [d, c] [w, v]) (hm : s.memory.Addressable)
    (hoverlap : (s.memory.range a.storage).overlaps (s.memory.regionRange region) = false)
    (hfit : v * w < Count.limit) :
    ∃ t s' xs, Target.of region [j, i] b.factors false = .ok t ∧ t.update .assign e s = .ok () s' ∧
      (List.range (w * v)).mapM (s'.memory.read b.storage) = .ok xs ∧
      Operator.transpose v w (s.memory.read a.storage) = .ok xs := by
  obtain ⟨t, s', ht, hupdate, hread⟩ :=
    he.assign_transposed hefree hij hstorage hfactors hfills hdims hm hoverlap
  let g := fun values => s'.memory.read b.storage (Box.position values [w, v])
  have hg : ∀ q < w, ∀ r < v, ∃ x, g [q, r] = .ok x ∧ s.memory.read a.storage (r * w + q) = .ok x := by
    intro q hq r hr
    obtain ⟨x, hx, hx'⟩ := hread q hq r hr
    exact ⟨x, by rwa [← Box.position_pair q r w v] at hx, hx'⟩
  have htranspose : Operator.transpose v w (s.memory.read a.storage) = (Box.multiIndices [w, v]).mapM g := by
    refine Operator.transpose_eq_mapM hfit fun r hr q hq => ?_
    obtain ⟨x, hx, hx'⟩ := hg q hq r hr
    rw [hx, hx']
  have hrange : (Box.multiIndices [w, v]).mapM g = (List.range (w * v)).mapM (s'.memory.read b.storage) := by
    rw [Box.mapM_position, Box.size_pair]
  obtain ⟨xs, hxs⟩ : ∃ xs, (Box.multiIndices [w, v]).mapM g = .ok xs := by
    rw [Box.multiIndices_pair, List.mapM_map]
    refine mapM_ok fun k hk => ?_
    obtain ⟨-, hq, hr⟩ := Box.div_mod_lt (List.mem_range.1 hk)
    obtain ⟨x, hx, -⟩ := hg _ hq _ hr
    exact ⟨x, hx⟩
  exact ⟨t, s', xs, ht, hupdate, hrange ▸ hxs, htranspose.trans hxs⟩

/-- What the direct loops on a matrix give is what index notation gives: products with a matrix or a vector,
the trace, and the transpose. -/
theorem direct_loops_agree (ha : a.Inhabits s.memory (.product [V, W])) (hv : V.dimension = .ok v)
    (hw : W.dimension = .ok w) {k : Index} (hij : i ≠ j) (hik : i ≠ k) (hjk : j ≠ k) :
    ∃ e, a.indexed [i, j] = .ok e ∧
      (∀ (X Y : Space) (b : Tensor α) (y n : Nat), W = X.dual → b.Inhabits s.memory (.product [X, Y]) →
        Y.dimension = .ok y → (Space.product [V, Y]).dimension = .ok n →
        ∃ f p xs s', b.indexed [j, k] = .ok f ∧ e.mul f = .ok p ∧ symbols p.free = [i, k] ∧
          p.eval s = .ok (.evaluated p.free (s.memory.own xs.toArray).2) s' ∧
          Operator.compose v w y (s.memory.read a.storage) (s.memory.read b.storage) = .ok xs) ∧
      (∀ (X : Space) (x : Tensor α), W = X.dual → (∀ ss, X ≠ .product ss) → x.Inhabits s.memory X →
        ∃ f p xs s', x.indexed [j] = .ok f ∧ e.mul f = .ok p ∧ symbols p.free = [i] ∧
          p.eval s = .ok (.evaluated p.free (s.memory.own xs.toArray).2) s' ∧
          Operator.apply v w (s.memory.read a.storage) (s.memory.read x.storage) = .ok xs) ∧
      (W = V.dual → ∃ f x, a.indexed [i, i] = .ok f ∧ f.value s.memory = .ok x ∧
        Operator.trace v (s.memory.read a.storage) = .ok x) ∧
      ∀ (b : Tensor α) (region : Region), b.Inhabits s.memory (.product [W, V]) →
        b.storage = .writable region → s.memory.Addressable →
        (s.memory.range a.storage).overlaps (s.memory.regionRange region) = false →
        ∃ t s' xs, Target.of region [j, i] b.factors false = .ok t ∧ t.update .assign e s = .ok () s' ∧
          (List.range (w * v)).mapM (s'.memory.read b.storage) = .ok xs ∧
          Operator.transpose v w (s.memory.read a.storage) = .ok xs := by
  obtain ⟨c, d, e, hc, hd, hfactors, hcount, he, hefree⟩ := ha.written_pair hv hw hij
  have hfit : v * w < Count.limit := hcount ▸ ha.count_lt
  have hdual : ∀ (X : Space) d', W = X.dual → X.concept = .ok d' → d.isDualOf d' = true := by
    rintro X d' rfl hd'
    rw [Space.concept_dual, hd'] at hd
    rw [Concept.isDualOf_iff, ← Except.ok.inj hd, Concept.dual_dual]
  have hdimension : ∀ X : Space, W = X.dual → X.dimension = .ok w := by
    rintro X rfl
    rwa [Space.dimension_dual] at hw
  refine ⟨e, he.indexed_eq, ?_, ?_, ?_, ?_⟩
  · intro X Y b y n hX hb hy hn
    obtain ⟨d', g, f, hd', -, -, hcount', hf, hffree⟩ := hb.written_pair (hdimension X hX) hy hjk
    rw [Space.dimension_pair hv hy] at hn
    obtain ⟨p, xs, s', hp, hsymbols, heval, hcompose⟩ := he.compose_eq hefree hf hffree (hdual X d' hX hd')
      hij hik hjk hfit (hcount' ▸ hb.count_lt) hn
    exact ⟨f, p, xs, s', hf.indexed_eq, hp, hsymbols, heval, hcompose⟩
  · intro X x hX hne hx
    obtain ⟨d', f, hd', hf, hffree⟩ := hx.written_single hne (hdimension X hX) j
    obtain ⟨n, hn, -⟩ := bind_eq_ok.1 ((Space.dimension_pair hv hw).symm.trans ha.dimension_eq)
    obtain ⟨p, xs, s', hp, hsymbols, heval, happly⟩ := he.apply_eq hefree hf hffree (hdual X d' hX hd') hij
      hfit (bind_eq_ok.2 ⟨n, hn, rfl⟩)
    exact ⟨f, p, xs, s', hf.indexed_eq, hp, hsymbols, heval, happly⟩
  · rintro rfl
    exact ha.trace_eq hv i
  · intro b region hb hstorage hm hoverlap
    obtain ⟨d', c', hd', hc', hfactors', hdims⟩ := Space.factors_pair hb.factors_eq hw hv
    obtain rfl := Except.ok.inj (hd.symm.trans hd')
    obtain rfl := Except.ok.inj (hc.symm.trans hc')
    exact he.transpose_eq hefree hij hstorage hfactors' hb.fills hdims hm hoverlap hfit

/-- An operator on a plane is squared, applied, traced and transposed. -/
theorem direct_loops_agree_plane : ∃ (V : Space) (s : Session (Binary .double)) (a x b : Tensor (Binary .double))
    (i j k : Index), a.Inhabits s.memory (.product [V, V.dual]) ∧ x.Inhabits s.memory V ∧
    b.Inhabits s.memory (.product [V.dual, V]) ∧ V.dimension = .ok 2 ∧ i ≠ j ∧ i ≠ k ∧ j ≠ k ∧
    ∃ e f g p q r t y xs ys zs s₁ s₂ s₃, a.indexed [i, j] = .ok e ∧
      a.indexed [j, k] = .ok f ∧ e.mul f = .ok p ∧
      p.eval s = .ok (.evaluated p.free (s.memory.own xs.toArray).2) s₁ ∧
      Operator.compose 2 2 2 (s.memory.read a.storage) (s.memory.read a.storage) = .ok xs ∧
      x.indexed [j] = .ok g ∧ e.mul g = .ok q ∧
      q.eval s = .ok (.evaluated q.free (s.memory.own ys.toArray).2) s₂ ∧
      Operator.apply 2 2 (s.memory.read a.storage) (s.memory.read x.storage) = .ok ys ∧
      a.indexed [i, i] = .ok r ∧ r.value s.memory = .ok y ∧
      Operator.trace 2 (s.memory.read a.storage) = .ok y ∧
      Target.of ⟨6, 4, true⟩ [j, i] b.factors false = .ok t ∧ t.update .assign e s = .ok () s₃ ∧
      (List.range 4).mapM (s₃.memory.read b.storage) = .ok zs ∧
      Operator.transpose 2 2 (s.memory.read a.storage) = .ok zs := by
  let V : Space := .based (.named "Real") 2 (.named "Plane") false (.named "Standard")
  let s : Session (Binary .double) := ⟨⟨8, ((List.range 10).map fun k => .ofInt k).toArray⟩, []⟩
  let a : {a : Tensor (Binary .double) // Tensor.on (.product [V, V.dual]) (.readOnly ⟨0, 4, true⟩) = .ok a} :=
    ⟨_, rfl⟩
  let x : {x : Tensor (Binary .double) // Tensor.on V (.readOnly ⟨4, 2, true⟩) = .ok x} := ⟨_, rfl⟩
  let b : {b : Tensor (Binary .double) // Tensor.on (.product [V.dual, V]) (.writable ⟨6, 4, true⟩) = .ok b} :=
    ⟨_, rfl⟩
  have ha : a.1.Inhabits s.memory (.product [V, V.dual]) :=
    ⟨a.2, rfl, by simp [Storage.Valid, a, s], show 4 < Count.limit by decide⟩
  have hx : x.1.Inhabits s.memory V :=
    ⟨x.2, rfl, by simp [Storage.Valid, x, s], show 2 < Count.limit by decide⟩
  have hb : b.1.Inhabits s.memory (.product [V.dual, V]) :=
    ⟨b.2, rfl, by simp [Storage.Valid, b, s], show 4 < Count.limit by decide⟩
  have hij : Index.ofChar 'i' ≠ .ofChar 'j' := by decide
  have hik : Index.ofChar 'i' ≠ .ofChar 'k' := by decide
  have hjk : Index.ofChar 'j' ≠ .ofChar 'k' := by decide
  obtain ⟨e, he, hcompose, happly, htrace, htranspose⟩ := direct_loops_agree ha rfl rfl hij hik hjk
  obtain ⟨f, p, xs, s₁, hf, hp, -, heval, hxs⟩ := hcompose V V.dual a.1 2 4 rfl ha rfl rfl
  obtain ⟨g, q, ys, s₂, hg, hq, -, heval', hys⟩ := happly V x.1 rfl (fun _ => Space.noConfusion) hx
  obtain ⟨r, y, hr, hy, hy'⟩ := htrace rfl
  obtain ⟨t, s₃, zs, ht, hupdate, hzs, hzs'⟩ := htranspose b.1 ⟨6, 4, true⟩ hb rfl ⟨by decide, by decide⟩
    (by decide)
  exact ⟨V, s, a.1, x.1, b.1, _, _, _, ha, hx, hb, rfl, hij, hik, hjk, e, f, g, p, q, r, t, y, xs, ys, zs,
    s₁, s₂, s₃, he, hf, hp, heval, hxs, hg, hq, heval', hys, hr, hy, hy', ht, hupdate, hzs, hzs'⟩

end Tensor

end TensorCalculus
