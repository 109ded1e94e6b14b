import TensorCalculus.Proofs.Counter
import TensorCalculus.Proofs.Build
import TensorCalculus.Proofs.Rank
import TensorCalculus.Proofs.Rearrangement
import TensorCalculus.Proofs.Sorting

/-!
# Components by name

`Expr.componentAt m e env` is the component of `e` at the values that `env` gives to its free symbols.
For each kind of expression there is an equation that says what it is in terms of the components of
the operands, without positions: how the assignment is extended, and what is summed over
(`componentAt_leaf`, `componentAt_sum`, …, `componentAt_coembed`).
-/

namespace TensorCalculus

open TensorCalculus.Expr (otherPositions)

variable {α : Type} [Scalar α]

namespace Expr

/-- The component at the values of the free symbols. -/
def componentAt (m : Memory α) (e : Expr α) (env : Assignment) : Checked α :=
  e.component m ((symbols e.free).map env)

/-- New symbols do not matter to an expression that does not have them. -/
theorem componentAt_extend {m : Memory α} {e : Expr α} {env : Assignment} {is new : List Index}
    {us vs : List Nat} (his : is.Nodup) (hlength : is.length = us.length)
    (hfresh : ∀ i ∈ new, i ∉ symbols (without e.free is)) :
    e.componentAt m ((env.extend new vs).extend is us) = e.componentAt m (env.extend is us) := by
  rw [componentAt, componentAt]
  congr 1
  refine List.map_congr_left fun i hi => ?_
  by_cases hmem : i ∈ is
  · exact Assignment.extend_congr his hlength hmem
  · rw [Assignment.extend_of_not_mem hmem, Assignment.extend_of_not_mem hmem,
      Assignment.extend_of_not_mem fun hnew => hfresh i hnew (mem_symbols_without.2 ⟨hi, hmem⟩)]

end Expr

/-- Sums over all values of the symbols `names`, in row-major order and from zero. Without symbols there
is nothing to sum. -/
def sumOver (names : List Index) (extents : List Nat) (f : Assignment → Checked α) (env : Assignment) :
    Checked α :=
  if names.isEmpty then f env
  else (Box.multiIndices extents).foldlM
    (fun sum values => do return sum + (← f (env.extend names values))) 0

theorem isEmpty_eq_of_length_eq {γ δ : Type} {xs : List γ} {ys : List δ} (h : xs.length = ys.length) :
    xs.isEmpty = ys.isEmpty := by
  rw [Bool.eq_iff_iff, List.isEmpty_iff_length_eq_zero, List.isEmpty_iff_length_eq_zero, h]

/-- In each term of a sum the values are those of the extended assignment. -/
theorem map_extend_of_mem_multiIndices {names : List Index} {extents values : List Nat}
    (hnodup : names.Nodup) (hlength : names.length = extents.length)
    (h : values ∈ Box.multiIndices extents) (env : Assignment) :
    values = names.map (env.extend names values) :=
  (Assignment.map_extend hnodup (hlength.trans (Box.mem_multiIndices.1 h).length.symm)).symm

namespace Expr
variable {left right inner : Expr α} (m : Memory α) (env : Assignment)

/-! ### Leaves -/

theorem componentAt_leaf {l : Leaf α} {factors : List Concept} (h : l.Indexes factors) :
    (Expr.leaf l).componentAt m env =
      sumOver (repeatedSymbols l.written)
        ((repeatedSymbols l.written).map (extentOf (boundIndices l.written factors l.dims)))
        (fun env => do m.read l.storage (← Box.flatten (l.written.map env) l.dims)) env := by
  show l.component m ((symbols l.free).map env) = _
  have hdims : l.dims.length = l.written.length := by rw [h.arity, h.dimension.length_eq]
  have hempty : l.summed.isEmpty = (repeatedSymbols l.written).isEmpty :=
    isEmpty_eq_of_length_eq h.pairs.length_eq.symm
  have hlength : (repeatedSymbols l.written).length = l.extents.length := by rw [h.extents_eq, List.length_map]
  obtain ⟨row, hplace, hrow⟩ := (Holds.blank l.written env).place h.located h.rank_le
  rw [Leaf.component, hplace, ok_bind, hdims, sumOver, hempty, ← h.extents_eq]
  split
  · next hnil =>
    have hfront := hrow.front h.rank_le fun p hp => by
      rw [← hempty, List.isEmpty_iff] at hnil
      simpa [hnil] using h.covers p hp
    rw [hfront, ok_bind]
  · rw [Odometer.foldM_first]
    refine foldlM_congr _ fun values hvalues sum => ?_
    have hvalues' := map_extend_of_mem_multiIndices h.nodup_repeated hlength hvalues env
    have hrow' := hrow.extend h.located (fun i hi => h.not_mem_repeated hi) values
    obtain ⟨row₁, hplace₁, hrow₁⟩ := hrow'.place h.located_first h.rank_le
    obtain ⟨row₂, hplace₂, hrow₂⟩ := hrow₁.place h.located_second h.rank_le
    have hfront := hrow₂.front h.rank_le fun p hp => by
      have := h.covers p hp
      simp only [List.mem_append]
      tauto
    rw [← hvalues'] at hplace₁ hplace₂
    simp only [hplace₁, hplace₂, hfront, ok_bind, bind_assoc]

/-- Components worked out before are read in row-major order. -/
theorem componentAt_evaluated {free : List BoundIndex} {array : OwnedArray α} :
    (Expr.evaluated free array).componentAt m env = (do
      entry array.toList (← Box.flatten ((symbols free).map env) (free.map BoundIndex.dim))) := by
  show component m (.evaluated free array) ((symbols free).map env) = _
  rw [component]
  congr 1
  funext k
  cases hk : array.components[k]? <;> simp [entry, OwnedArray.toList, hk]

/-! ### Sums, multiples and products -/

theorem componentAt_sum {op : SumOp} {plan : SumPlan} (h : plan.Matches left.free right.free)
    (hleft : left.WellFormed) :
    (Expr.sum op left right plan).componentAt m env = (do
      let x ← left.componentAt m env
      let y ← right.componentAt m env
      match op with
      | .plus => return x + y
      | .minus => return x - y) := by
  have hslots : checkSlots plan.permutation.length = .ok () := if_pos (by
    rw [h.located.length_eq, length_symbols, ← h.length_eq, ← length_symbols]
    exact hleft.length_le)
  show Expr.component m (.sum op left right plan) ((symbols left.free).map env) = _
  rw [component, hslots, ok_bind, h.located.mapM_entry env, ok_bind]
  rfl

theorem componentAt_scaled {op : ScaleOp} {scalar : α} :
    (Expr.scaled op inner scalar).componentAt m env = (do
      let x ← inner.componentAt m env
      match op with
      | .times => return x * scalar
      | .over => return x / scalar) := rfl

theorem componentAt_product {plan : ProductPlan} (h : plan.Contracts left.free right.free)
    (hleft : left.WellFormed) (hright : right.WellFormed) :
    (Expr.product left right plan).componentAt m env =
      sumOver (Occurrence.common (symbols left.free) (symbols right.free))
        ((Occurrence.common (symbols left.free) (symbols right.free)).map (extentOf left.free))
        (fun env => do return (← left.componentAt m env) * (← right.componentAt m env)) env := by
  obtain ⟨ps, qs, hslots, hps, hqs⟩ := h.slots
  have hvalues : (symbols plan.free).map env =
      (symbols (without left.free (symbols right.free))).map env ++
        (symbols (without right.free (symbols left.free))).map env := by
    rw [h.free_eq, symbols_append, List.map_append]
  have hcommon : (Occurrence.common (symbols left.free) (symbols right.free)).Nodup := hleft.nodup.filter _
  have hleftAll := hps.covers h.located_left hleft.nodup fun i hi => by
    rw [mem_symbols_without, Occurrence.mem_common]
    tauto
  have hrightAll := hqs.covers h.located_right hright.nodup fun i hi => by
    rw [mem_symbols_without, Occurrence.mem_common]
    tauto
  have hleftNew : ∀ i ∈ symbols (without left.free (symbols right.free)),
      i ∉ Occurrence.common (symbols left.free) (symbols right.free) := fun i hi hi' =>
    (mem_symbols_without.1 hi).2 (Occurrence.mem_common.1 hi').2
  have hrightNew : ∀ i ∈ symbols (without right.free (symbols left.free)),
      i ∉ Occurrence.common (symbols left.free) (symbols right.free) := fun i hi hi' =>
    (mem_symbols_without.1 hi).2 (Occurrence.mem_common.1 hi').1
  have hempty : plan.summed.isEmpty = (Occurrence.common (symbols left.free) (symbols right.free)).isEmpty :=
    isEmpty_eq_of_length_eq (by rw [← h.located_left.length_eq, List.length_map])
  obtain ⟨l, hl, hlrow⟩ := (Holds.blank (symbols left.free) env).place hps hleft.length_le
  obtain ⟨r, hr, hrrow⟩ := (Holds.blank (symbols right.free) env).place hqs hright.length_le
  show component m (.product left right plan) ((symbols plan.free).map env) = _
  rw [hvalues, component, hslots, placeSide_left (by rw [List.length_map, hps.length_eq]),
    placeSide_right (by rw [List.length_map, hps.length_eq]) (by rw [List.length_map, hqs.length_eq]),
    hl, ok_bind, hr, ok_bind, sumOver, hempty, ← h.extents_eq]
  split
  · next hnil =>
    rw [← hempty, List.isEmpty_iff] at hnil
    have hfrontLeft := hleft.front_eq hlrow fun p hp => by simpa [hnil] using hleftAll p hp
    have hfrontRight := hright.front_eq hrrow fun p hp => by simpa [hnil] using hrightAll p hp
    rw [hfrontLeft, ok_bind, hfrontRight]
    rfl
  · rw [Odometer.foldM_first]
    refine foldlM_congr _ fun values hvalues sum => ?_
    have hvalues' := map_extend_of_mem_multiIndices hcommon
      (by rw [h.extents_eq, List.length_map]) hvalues env
    obtain ⟨l', hl', hlrow'⟩ := (hlrow.extend hps hleftNew values).place h.located_left hleft.length_le
    obtain ⟨r', hr', hrrow'⟩ := (hrrow.extend hqs hrightNew values).place h.located_right hright.length_le
    have hfrontLeft := hleft.front_eq hlrow' fun p hp => by
      simpa [or_comm] using hleftAll p hp
    have hfrontRight := hright.front_eq hrrow' fun p hp => by
      simpa [or_comm] using hrightAll p hp
    rw [← hvalues'] at hl' hr'
    simp only [hl', hr', hfrontLeft, hfrontRight, ok_bind, bind_assoc, pure_bind]
    rfl

/-! ### Indices replaced by others -/

omit [Scalar α] in
/-- Indices are set together: the others are placed first, then the values of the located ones. -/
theorem WellFormed.place_others (hinner : inner.WellFormed) {ps : List Nat} {is : List Index}
    (h : Located (symbols inner.free) ps is) (hnodup : is.Nodup) :
    ∃ row, place blank (otherPositions inner.free.length ps) ((symbols (without inner.free is)).map env) =
        .ok row ∧
      ∀ values, values.length = is.length → ∃ row', place row ps values = .ok row' ∧
        front inner.rank row' = .ok ((symbols inner.free).map (env.extend is values)) := by
  have hothers := located_otherPositions hinner.nodup h
  obtain ⟨row, hplace, hrow⟩ := (Holds.blank (symbols inner.free) env).place hothers hinner.length_le
  refine ⟨row, hplace, fun values hlength => ?_⟩
  have hvalues : is.map (env.extend is values) = values := Assignment.map_extend hnodup hlength.symm
  obtain ⟨row', hplace', hrow'⟩ := (hrow.extend hothers
    (fun i hi => (mem_symbols_without.1 hi).2) values).place h hinner.length_le
  rw [hvalues] at hplace'
  refine ⟨row', hplace', hinner.front_eq hrow' fun p hp => ?_⟩
  rw [length_symbols] at hp
  rw [List.mem_append, mem_otherPositions]
  tauto

/-- The values of the indices that stay, and the value of the new one behind them. -/
theorem entry_concat {is : List Index} {ps : List Nat} (h : ps.length = is.length) (into : Index) :
    entry (is.map env ++ [env into]) ps.length = .ok (env into) := by
  rw [entry_eq_ok, h, List.getElem?_append_right (by simp)]
  simp

omit [Scalar α] in
theorem place_gathered {free : List BoundIndex} {indices : List Index} {into : Index} {taken kept row : List Nat}
    (h : Gathers inner.free free indices into taken kept) (hinner : inner.WellFormed)
    (hplace : place blank (otherPositions inner.free.length taken)
      ((symbols (without inner.free indices)).map env) = .ok row) :
    place blank kept ((symbols free).map env) = .ok row ∧
      entry ((symbols free).map env) kept.length = .ok (env into) := by
  have hkept : kept.length = (symbols (without inner.free indices)).length := by
    rw [h.kept_eq, (located_otherPositions hinner.nodup h.located).length_eq]
  have hvalues : (symbols free).map env = (symbols (without inner.free indices)).map env ++ [env into] := by
    rw [h.symbols_free, List.map_append]
    rfl
  rw [hvalues, entry_concat env hkept, place_append (by rw [List.length_map, hkept]), h.kept_eq]
  exact ⟨hplace, rfl⟩

theorem componentAt_bundle {plan : BundlePlan} {indices : List Index} {into : Index}
    (h : plan.Bundles inner.free indices into) (hinner : inner.WellFormed) :
    (Expr.bundle inner plan).componentAt m env = (do
      let (values, _) ← Box.digits (indices.map (extentOf inner.free)) (env into)
      inner.componentAt m (env.extend indices values)) := by
  have hdims : plan.dims.length ≤ maxRank := by
    rw [h.dims_eq, List.length_map]
    exact hinner.length_le_of_located h.located h.nodup
  have hslots : front plan.dims.length blank = .ok (blank.take plan.dims.length) :=
    if_pos (by simpa [blank] using hdims)
  have hslotsLength : (blank.take plan.dims.length).length = plan.dims.length := by
    simpa [blank] using hdims
  obtain ⟨row, hothers, hset⟩ := hinner.place_others env h.located h.nodup
  obtain ⟨hplace, hentry⟩ := place_gathered env h.toGathers hinner hothers
  show component m (.bundle inner plan) ((symbols plan.free).map env) = _
  rw [component, hplace, ok_bind, hslots, ok_bind, hentry, ok_bind, Box.unflatten_eq hslotsLength, ← h.dims_eq]
  cases hdigits : Box.digits plan.dims (env into) with
  | error e => rfl
  | ok digits =>
    obtain ⟨values, rest⟩ := digits
    obtain ⟨row', hplace', hfront⟩ := hset values (by
      rw [Box.length_digits hdigits, h.dims_eq, List.length_map])
    simp only [ok_bind, pure_bind, hplace', hfront]
    rfl

omit [Scalar α] in
theorem separate_scattered {free : List BoundIndex} {index : Index} {into : List Index} {position : Nat}
    (h : Scatters inner.free free index into position) (hinner : inner.WellFormed) :
    separate (inner.rank - 1) ((symbols free).map env) =
      .ok ((symbols (without inner.free [index])).map env, into.map env) := by
  have hkept : inner.rank - 1 = ((symbols (without inner.free [index])).map env).length := by
    rw [List.length_map, length_symbols, length_without_singleton hinner.nodup h.located]
    rfl
  rw [h.symbols_free, List.map_append, hkept]
  simp [separate]

omit [Scalar α] in
/-- One index is set: the others are placed first. -/
theorem WellFormed.place_besides (hinner : inner.WellFormed) {position : Nat} {index : Index}
    (h : (symbols inner.free)[position]? = some index) :
    ∃ row, place blank ((List.range inner.rank).filter (· != position))
        ((symbols (without inner.free [index])).map env) = .ok row ∧
      ∀ value, ∃ row', putSlot row position value = .ok row' ∧
        front inner.rank row' = .ok ((symbols inner.free).map (env.extend [index] [value])) := by
  obtain ⟨row, hplace, hset⟩ := hinner.place_others env (located_singleton h) (List.nodup_singleton _)
  refine ⟨row, by rwa [filter_ne_eq_otherPositions], fun value => ?_⟩
  obtain ⟨row', hplace', hfront⟩ := hset [value] rfl
  refine ⟨row', ?_, hfront⟩
  obtain ⟨row'', hput, hrow''⟩ := bind_eq_ok.1 hplace'
  cases hrow''
  exact hput

theorem componentAt_split {plan : SplitPlan} {index : Index} {into : List Index}
    (h : plan.Splits inner.free index into) (hinner : inner.WellFormed) :
    (Expr.split inner plan).componentAt m env = (do
      let flat ← Box.flatten (into.map env) (into.map (extentOf plan.free))
      inner.componentAt m (env.extend [index] [flat])) := by
  have hdims := h.dims_eq hinner.nodup
  obtain ⟨row, hplace, hset⟩ := hinner.place_besides env h.located
  show component m (.split inner plan) ((symbols plan.free).map env) = _
  rw [component, separate_scattered env h.toScatters hinner, ok_bind]
  dsimp only
  rw [hplace, ok_bind, ← hdims]
  cases hflat : Box.flatten (into.map env) plan.dims with
  | error e => rfl
  | ok flat =>
    obtain ⟨row', hput, hfront⟩ := hset flat
    simp only [ok_bind, hput, hfront]
    rfl

/-! ### Powers -/

theorem factorial_lt_limit {n : Nat} (h : n ≤ maxRank) : n.factorial < Count.limit :=
  (Nat.factorial_le h).trans_lt (by decide)

theorem componentAt_embed {plan : EmbedPlan} {index : Index} {into : List Index} {embedding : Embedding}
    (h : plan.Embeds inner.free index into embedding) (hinner : inner.WellFormed) :
    (Expr.embed inner plan).componentAt m env = (do
      let (sign, sorted) := plan.kind.canonicalize (into.map env)
      if sign = 0 then return 0
      let rank ← plan.kind.rank sorted
      let x ← inner.componentAt m (env.extend [index] [rank])
      return x * Scalar.ofDouble (embedding.coefficient sign (Power.rearrangements sorted).length)) := by
  have hslots : checkSlots plan.degree = .ok () := if_pos (h.degree_eq ▸ h.length_into_le)
  have horbit : Power.orbitSize (plan.kind.canonicalize (into.map env)).2 =
      .ok (Power.rearrangements (plan.kind.canonicalize (into.map env)).2).length := by
    refine Power.orbitSize_eq (plan.kind.canonicalize_sorted _) (factorial_lt_limit ?_)
    rw [(plan.kind.canonicalize_perm _).length_eq, List.length_map]
    exact h.length_into_le
  obtain ⟨row, hplace, hset⟩ := hinner.place_besides env h.located
  show component m (.embed inner plan) ((symbols plan.free).map env) = _
  rw [component, separate_scattered env h.toScatters hinner, ok_bind]
  dsimp only
  rw [hslots, ok_bind, if_neg (by rw [List.length_map, h.degree_eq]; simp)]
  split
  · rfl
  · rw [hplace, ok_bind]
    cases hrank : plan.kind.rank (plan.kind.canonicalize (into.map env)).2 with
    | error e => rfl
    | ok rank =>
      obtain ⟨row', hput, hfront⟩ := hset rank
      simp only [ok_bind, hput, hfront, horbit, h.embedding_eq]
      rfl

theorem componentAt_coembed {plan : CoembedPlan} {indices : List Index} {into : Index} {kind : PowerKind}
    {embedding : Embedding} (h : plan.Merges inner.free indices into kind embedding)
    (hinner : inner.WellFormed) :
    (Expr.coembed inner plan).componentAt m env = (do
      let tuple ← kind.unrank indices.length (env into)
      let sum ← (Power.rearrangements tuple).foldlM (fun sum t => do
        let x ← inner.componentAt m (env.extend indices t)
        return if (kind.canonicalize t).1 = 1 then sum + x else sum - x) 0
      return sum * Scalar.ofDouble (embedding.coefficient 1 (Power.rearrangements tuple).length)) := by
  have hdegree : indices.length ≤ maxRank := hinner.length_le_of_located h.located h.nodup
  have hslots : checkSlots plan.merged.length = .ok () := if_pos (h.located.length_eq ▸ hdegree)
  obtain ⟨row, hothers, hset⟩ := hinner.place_others env h.located h.nodup
  obtain ⟨hplace, hentry⟩ := place_gathered env h.toGathers hinner hothers
  show component m (.coembed inner plan) ((symbols plan.free).map env) = _
  rw [component, hplace, ok_bind, hslots, ok_bind, hentry, ok_bind, h.kind_eq, h.located.length_eq]
  cases hunrank : kind.unrank indices.length (env into) with
  | error e => rfl
  | ok tuple =>
    obtain ⟨hlength, hsorted⟩ := PowerKind.sorted_of_unrank hunrank
    have horbit := Power.orbitSize_eq hsorted (factorial_lt_limit (hlength ▸ hdegree))
    simp only [ok_bind, horbit, Power.foldRearrangements_eq _ hsorted, h.embedding_eq]
    congr 1
    refine foldlM_congr _ fun t ht sum => ?_
    have htlength : t.length = indices.length := by
      rw [(Power.mem_rearrangements.1 ht).length_eq, hlength]
    obtain ⟨row', hplace', hfront⟩ := hset t htlength
    simp only [hplace', hfront, ok_bind]
    rfl

end Expr

end TensorCalculus
