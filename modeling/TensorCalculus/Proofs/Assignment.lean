import TensorCalculus.Proofs.InRange

/-!
# Assignment

An assignment goes through the multi-indices of its target in row-major order and updates one
component after the other. Because the right-hand side does not overlap the target, each step sees the
right-hand side as it was before the assignment (`store_eq_none`), and each step writes a place of its own
(`components_of_storeAt`). So the outcome is that of working out the right-hand side first, into cells
behind all others that take no part in the loop (`loop_own`), if it can be worked out
(`Target.update_eq_evaluated`). It cannot always: the components of the right-hand side are counted in the
order of its own indices, and large extents in front of a zero are too much for a count.
-/

namespace TensorCalculus

variable {α : Type} [Scalar α]

/-- What an update makes of the old component and that of the right-hand side. -/
def Update.apply (op : Update) (old x : α) : α :=
  match op with
  | .assign => x
  | .add => old + x
  | .sub => old - x

/-- An expression that has all its components can be evaluated, if it can be counted. -/
theorem Expr.eval_ok {e : Expr α} {s : Session α} {count : Nat} (he : e.WellFormed)
    (hcount : Count.product (e.free.map BoundIndex.dim) = .ok count)
    (h : ∀ env, InRange e.free env → ∃ x, e.component s.memory (e.freeSymbols.map env) = .ok x) :
    ∃ xs s₁, e.components s.memory count = .ok xs ∧
      e.eval s = .ok (.evaluated e.free (s.memory.own xs).2) s₁ ∧ s₁.memory = (s.memory.own xs).1 := by
  obtain ⟨ys, hys⟩ : ∃ ys, (Box.multiIndices (e.free.map BoundIndex.dim)).mapM (e.component s.memory) =
      .ok ys := by
    refine mapM_ok fun values hvalues => ?_
    obtain ⟨env, rfl, henv⟩ := exists_inRange he.nodup (Box.mem_multiIndices.1 hvalues)
    exact h env henv
  have hxs : e.components s.memory count = .ok ys.toArray := (components_eq_ok hcount).2 hys
  have hrank : e.free.length ≤ maxRank := length_symbols ▸ he.length_le
  exact ⟨_, _, hxs, eval_eq_ok.2 ⟨hrank, count, _, hcount, hxs, rfl, rfl⟩, rfl⟩

namespace Target
variable {t : Target} {op : Update} {m m' : Memory α} {f : List Nat → Checked α} {values : List Nat}

/-- The component of the target at the values of its symbols. -/
def componentAt (t : Target) (m : Memory α) (env : Assignment) : Checked α := do
  m.readRegion t.region (← Box.flatten ((symbols t.free).map env) t.dims)

/-- The right-hand side at the values of the target's indices. -/
def source (e : Expr α) (permutation : List Nat) (m : Memory α) (values : List Nat) : Checked α := do
  checkSlots permutation.length
  e.component m (← permutation.mapM (entry values))

/-- Updates the component at the values from the right-hand side `f`. -/
def storeAt (t : Target) (op : Update) (f : List Nat → Checked α) (m : Memory α) (values : List Nat) :
    Checked (Memory α) := do
  let x ← f values
  let flat ← Box.flatten values t.dims
  let old ← m.readRegion t.region flat
  return m.put t.region flat (op.apply old x)

/-! ### One step -/

theorem storeAt_eq_ok (h : t.storeAt op f m values = .ok m') : ∃ x flat old, f values = .ok x ∧
    Box.flatten values t.dims = .ok flat ∧ m.readRegion t.region flat = .ok old ∧
    m' = m.put t.region flat (op.apply old x) := by
  obtain ⟨x, hx, h⟩ := bind_eq_ok.1 h
  obtain ⟨flat, hflat, h⟩ := bind_eq_ok.1 h
  obtain ⟨old, hold, h⟩ := bind_eq_ok.1 h
  cases h
  exact ⟨x, flat, old, hx, hflat, hold, rfl⟩

/-- A step writes at most a cell of the target. -/
theorem sameOutside_of_storeAt (h : t.storeAt op f m values = .ok m') : m.SameOutside t.region m' := by
  obtain ⟨x, flat, old, -, -, hold, rfl⟩ := storeAt_eq_ok h
  exact Memory.sameOutside_put (Memory.readRegion_eq_ok.1 hold).1 _

theorem storeAt_congr {g : List Nat → Checked α} (h : f values = g values) :
    t.storeAt op f m values = t.storeAt op g m values := by
  rw [storeAt, storeAt, h]

/-- A step takes no notice of new cells. -/
theorem storeAt_own (hregion : t.region.start + t.region.count ≤ m.cells.size) (xs : Array α)
    (h : t.storeAt op f m values = .ok m') :
    t.storeAt op f (m.own xs).1 values = .ok (m'.own xs).1 := by
  obtain ⟨x, flat, old, hx, hflat, hold, rfl⟩ := storeAt_eq_ok h
  have hlt := (Memory.readRegion_eq_ok.1 hold).1
  rw [storeAt, hx, ok_bind, hflat, ok_bind, (Memory.within_own m xs).readRegion_eq hregion, hold, ok_bind,
    Memory.put_own (by omega)]
  rfl

/-- The step of the loop, with the right-hand side read in the current memory. -/
theorem updated_eq_storeAt {permutation : List Nat} {e : Expr α}
    (hregion : t.region.start + t.region.count ≤ m.cells.size) :
    (do
      let (place, x) ← t.updated op permutation e ⟨t.dims, values, false⟩ m
      return m.put t.region place x) =
    t.storeAt op (source e permutation m) m values := by
  simp only [updated, storeAt, source, Odometer.flat, bind_assoc]
  refine bind_congr fun _ => bind_congr fun _ => bind_congr fun x => bind_congr fun flat => ?_
  by_cases hflat : flat < t.region.count
  · have hcell : t.region.start + flat < m.cells.size := by omega
    have hread := Memory.readRegion_eq_ok.2 ⟨hflat, Array.getElem?_eq_getElem hcell⟩
    rw [Region.check, if_pos hflat, hread]
    cases op <;> rfl
  · rw [Memory.readRegion, Region.check, if_neg hflat]
    rfl

/-! ### The loop -/

/-- The loop ends well exactly if each of its steps does. -/
theorem storeSteps_eq_none {permutation : List Nat} {e : Expr α} {n : Nat} {o : Odometer} :
    t.storeSteps op permutation e n o m = (m', none) ↔
      Odometer.foldSteps (fun m o => do
        let (place, x) ← t.updated op permutation e o m
        return m.put t.region place x) n o m = .ok m' := by
  induction n generalizing o m with
  | zero => simp [storeSteps, Odometer.foldSteps, pure_eq_ok]
  | succ n ih =>
    rw [storeSteps, Odometer.foldSteps]
    cases hupdated : t.updated op permutation e o m with
    | error fault =>
      constructor <;>
      · intro h
        cases h
    | ok p => exact ih

/-- As long as nothing outside the target changes, the right-hand side is that of the memory at the start. -/
theorem store_eq_none {permutation : List Nat} {e : Expr α}
    (hregion : t.region.start + t.region.count ≤ m.cells.size)
    (hsource : ∀ m₁, m.SameOutside t.region m₁ → e.component m₁ = e.component m) :
    t.store op permutation e m = (m', none) ↔
      (Box.multiIndices t.dims).foldlM (t.storeAt op (source e permutation m)) m = .ok m' := by
  have hfold := Odometer.foldM_first (m := Except Fault) (fun m o => do
    let (place, x) ← t.updated op permutation e o m
    return m.put t.region place x) m t.dims
  rw [store, storeSteps_eq_none, ← Odometer.foldM, hfold]
  rw [foldlM_congr_of_invariant (m.SameOutside t.region) _ _ (.refl _ _)]
  · intro values _ m₁ hm₁
    rw [updated_eq_storeAt (by rw [hm₁.size_eq]; exact hregion)]
    exact storeAt_congr (by rw [source, hsource m₁ hm₁]; rfl)
  · intro values _ m₁ m₂ hm₁ hstep
    exact hm₁.trans (sameOutside_of_storeAt hstep)

theorem loop_own {vs : List (List Nat)} (hregion : t.region.start + t.region.count ≤ m.cells.size)
    (xs : Array α) (h : vs.foldlM (t.storeAt op f) m = .ok m') :
    vs.foldlM (t.storeAt op f) (m.own xs).1 = .ok (m'.own xs).1 := by
  induction vs generalizing m with
  | nil =>
    cases h
    rfl
  | cons v vs ih =>
    rw [List.foldlM_cons] at h
    obtain ⟨m₁, hstep, h⟩ := bind_eq_ok.1 h
    have hregion₁ := (sameOutside_of_storeAt hstep).size_eq ▸ hregion
    rw [List.foldlM_cons, storeAt_own hregion xs hstep]
    exact ih hregion₁ h

/-- A loop over different places updates each of them once, from the value that it had before the loop. -/
theorem components_of_storeAt {vs : List (List Nat)} (hbox : ∀ values ∈ vs, Box.InBox values t.dims)
    (hnodup : vs.Nodup) (h : vs.foldlM (t.storeAt op f) m = .ok m') :
    (∀ cell, (∀ values ∈ vs, cell ≠ t.region.start + Box.position values t.dims) →
      m'.cells[cell]? = m.cells[cell]?) ∧
    ∀ values ∈ vs, ∃ x old, f values = .ok x ∧
      Box.flatten values t.dims = .ok (Box.position values t.dims) ∧
      m.readRegion t.region (Box.position values t.dims) = .ok old ∧
      m'.readRegion t.region (Box.position values t.dims) = .ok (op.apply old x) := by
  induction vs generalizing m with
  | nil =>
    cases h
    exact ⟨fun _ _ => rfl, by simp⟩
  | cons v vs ih =>
    rw [List.foldlM_cons] at h
    obtain ⟨m₁, hstep, h⟩ := bind_eq_ok.1 h
    obtain ⟨hv, hnodup⟩ := List.nodup_cons.1 hnodup
    have hvbox := hbox v (by simp)
    have hvsbox : ∀ values ∈ vs, Box.InBox values t.dims := fun w hw => hbox w (by simp [hw])
    obtain ⟨x, flat, old, hx, hflat, hold, rfl⟩ := storeAt_eq_ok hstep
    obtain rfl := Box.flatten_eq_ok hvbox.length hflat
    obtain ⟨hframe, hupdate⟩ := ih hvsbox hnodup h
    have hne : ∀ w ∈ vs, Box.position w t.dims ≠ Box.position v t.dims := fun w hw heq =>
      hv (Box.position_injOn (hvsbox w hw) hvbox heq ▸ hw)
    refine ⟨fun cell hcell => ?_, fun w hw => ?_⟩
    · rw [hframe cell fun w hw => hcell w (by simp [hw]), Memory.getElem?_put_ne (hcell v (by simp))]
    · rcases List.mem_cons.1 hw with rfl | hw
      · -- the steps that follow do not come back to this place
        have hlast : m'.cells[t.region.start + Box.position w t.dims]? = _ :=
          hframe _ fun u hu heq => hne u hu (by omega)
        refine ⟨x, old, hx, hflat, hold, ?_⟩
        rw [Memory.readRegion, hlast]
        exact Memory.readRegion_put_self hold _
      · obtain ⟨x', old', hx', hflat', hold', hnew'⟩ := hupdate w hw
        rw [Memory.readRegion_put_ne (hne w hw)] at hold'
        exact ⟨x', old', hx', hflat', hold', hnew'⟩

/-! ### The assignment -/

variable {e : Expr α} {s s' : Session α}

/-- An assignment succeeds if the indices match, the right-hand side does not overlap the target, and the
loop ends well. -/
theorem update_eq_ok (ht : t.unchecked = false) : t.update op e s = .ok () s' ↔
    ∃ permutation m', matchFree t.free e.free = .ok permutation ∧
      e.overlaps s.memory (s.memory.regionRange t.region) = false ∧
      t.store op permutation e s.memory = (m', none) ∧
      s' = { memory := m', log := s.log ++ [.update op t.free e.free] } := by
  unfold update
  constructor
  · intro h
    obtain ⟨permutation, s₁, h₁, h⟩ := Action.bind_eq_ok.1 h
    obtain ⟨hmatch, rfl⟩ := Action.ofOutcome_eq_ok.1 h₁
    obtain ⟨s₂, s₃, h₂, h⟩ := Action.bind_eq_ok.1 h
    cases h₂
    dsimp only at h
    rw [ht] at h
    simp only [Bool.false_eq_true, if_false] at h
    split at h
    · obtain ⟨_, _, -, h⟩ := Action.bind_eq_ok.1 h
      obtain ⟨_, _, h₃, -⟩ := Action.bind_eq_ok.1 h
      cases h₃
    · next hoverlap =>
      obtain ⟨⟨⟩, s₄, h₃, h⟩ := Action.bind_eq_ok.1 h
      obtain rfl := Action.record_eq_ok.1 h₃
      obtain ⟨⟨⟩, s₅, h₄, h⟩ := Action.bind_eq_ok.1 h
      cases h₄
      obtain ⟨⟨m', fault⟩, hstore⟩ : ∃ p, t.store op permutation e s.memory = p := ⟨_, rfl⟩
      rw [hstore] at h
      cases fault with
      | none =>
        cases h
        exact ⟨permutation, m', liftError_eq_ok.1 hmatch, by simpa using hoverlap, hstore, rfl⟩
      | some f => cases h
  · rintro ⟨permutation, m', hmatch, hoverlap, hstore, rfl⟩
    refine Action.bind_eq_ok.2 ⟨permutation, s, Action.ofOutcome_eq_ok.2 ⟨liftError_eq_ok.2 hmatch, rfl⟩, ?_⟩
    refine Action.bind_eq_ok.2 ⟨s, s, rfl, ?_⟩
    dsimp only
    rw [ht, hoverlap, hstore]
    rfl

theorem of_eq_ok {region : Region} {written : List Index} {factors : List Concept} {unchecked : Bool}
    (h : Target.of region written factors unchecked = .ok t) :
    t.region = region ∧ t.unchecked = unchecked ∧ (symbols t.free).Nodup ∧
      ∀ b ∈ t.free, b.factor.dimension = .ok b.dim := by
  unfold Target.of at h
  obtain ⟨dims, hdims, h⟩ := bind_eq_ok.1 h
  obtain ⟨⟨⟩, hdistinct, h⟩ := bind_eq_ok.1 h
  cases h
  obtain ⟨harity, -, hdims⟩ := factorDims_eq_ok hdims
  refine ⟨rfl, rfl, ?_, fun b hb => dimension_boundIndices hdims hb⟩
  show (symbols (boundIndices written factors dims)).Nodup
  rw [symbols_boundIndices harity hdims.length_eq]
  exact checkDistinct_eq_ok.1 hdistinct

section Matched
variable {plan : SumPlan} (hplan : plan.Matches t.free e.free)
include hplan

/-- The values of the target's symbols are handed to the right-hand side by name. -/
theorem source_eq (he : e.WellFormed) (env : Assignment) :
    source e plan.permutation m ((symbols t.free).map env) = e.component m (e.freeSymbols.map env) := by
  have hslots : checkSlots plan.permutation.length = .ok () :=
    if_pos (hplan.located.length_eq ▸ he.length_le)
  rw [source, hslots, ok_bind, hplan.located.mapM_entry env, ok_bind]
  rfl

/-- After the loop each component of the target is updated from the right-hand side. -/
theorem componentAt_of_loop (he : e.WellFormed)
    (hloop : (Box.multiIndices t.dims).foldlM (t.storeAt op (source e plan.permutation m)) m = .ok m')
    {env : Assignment} (henv : InRange t.free env) :
    ∃ old x, t.componentAt m env = .ok old ∧ e.component m (e.freeSymbols.map env) = .ok x ∧
      t.componentAt m' env = .ok (op.apply old x) := by
  obtain ⟨-, hupdated⟩ := components_of_storeAt (fun v hv => Box.mem_multiIndices.1 hv)
    Box.nodup_multiIndices hloop
  obtain ⟨x, old, hx, hflat, hold, hnew⟩ := hupdated _ (Box.mem_multiIndices.2 (inBox_iff_inRange.2 henv))
  rw [source_eq hplan he] at hx
  refine ⟨old, x, ?_, hx, ?_⟩
  · rw [componentAt, hflat, ok_bind, hold]
  · rw [componentAt, hflat, ok_bind, hnew]

/-- The loop takes the same steps with the components that were worked out before. -/
theorem loop_evaluated (he : e.WellFormed) (ht : (symbols t.free).Nodup)
    (hrange : ∀ env, InRange t.free env → InRange e.free env) {count : Nat}
    (hcount : Count.product (e.free.map BoundIndex.dim) = .ok count) {array : OwnedArray α}
    (hxs : e.components m count = .ok array.components) (m₁ : Memory α) :
    (Box.multiIndices t.dims).foldlM
        (t.storeAt op (source (.evaluated e.free array) plan.permutation m')) m₁ =
      (Box.multiIndices t.dims).foldlM (t.storeAt op (source e plan.permutation m)) m₁ := by
  refine foldlM_congr m₁ fun values hvalues m₂ => storeAt_congr ?_
  obtain ⟨env, rfl, henv⟩ := exists_inRange ht (Box.mem_multiIndices.1 hvalues)
  have hcopy : plan.Matches t.free (Expr.evaluated e.free array).free := hplan
  rw [source_eq hcopy ⟨he.nodup, he.length_le⟩, source_eq hplan he]
  exact Expr.component_evaluated hcount hxs (inBox_iff_inRange.2 (hrange env henv))

end Matched

/-- An accepted assignment updates each component of the target from the right-hand side as it was
before, and changes nothing else. The right-hand side can be evaluated first if the number of its components
can be counted in the order of its own indices. Then the assignment of what was evaluated is accepted too and
leaves the same memory, with the evaluated components in cells behind it. -/
theorem update_eq_evaluated {region : Region} {written : List Index} {factors : List Concept}
    (ht : Target.of region written factors false = .ok t) (c : Expr.Built e) (hm : s.memory.Addressable)
    (hregion : region.start + region.count ≤ s.memory.cells.size) (h : t.update op e s = .ok () s') :
    (∀ env, InRange t.free env → ∃ old x, t.componentAt s.memory env = .ok old ∧
      e.component s.memory (e.freeSymbols.map env) = .ok x ∧
      t.componentAt s'.memory env = .ok (op.apply old x)) ∧
    s.memory.SameOutside region s'.memory ∧
    ((∃ e' s₁, e.eval s = .ok e' s₁) ↔ ∃ count, Count.product (e.free.map BoundIndex.dim) = .ok count) ∧
    ∀ e' s₁, e.eval s = .ok e' s₁ → ∃ xs s₂, s₁.memory = (s.memory.own xs).1 ∧
      t.update op e' s₁ = .ok () s₂ ∧ s₂.memory = (s'.memory.own xs).1 := by
  obtain ⟨rfl, hchecked, hnodup, hdims⟩ := of_eq_ok ht
  obtain ⟨permutation, m', hmatch, hoverlap, hstore, rfl⟩ := (update_eq_ok hchecked).1 h
  have hplan : (⟨permutation, []⟩ : SumPlan).Matches t.free e.free := Expr.matchFree_eq_ok hmatch
  have he := c.sound.toWellFormed
  have hrange : ∀ env, InRange t.free env ↔ InRange e.free env := fun env =>
    hplan.inRange_iff hnodup he.nodup hdims c.sound.dimension
  have hloop := (store_eq_none hregion fun m₁ hm₁ => Expr.component_congr hm hregion hm₁ hoverlap).1 hstore
  have hcomponents := fun env (henv : InRange t.free env) => componentAt_of_loop hplan he hloop henv
  refine ⟨hcomponents, ?_, ⟨?_, ?_⟩, ?_⟩
  · exact foldlM_invariant (s.memory.SameOutside t.region)
      (fun _ _ _ _ hsame hstep => hsame.trans (sameOutside_of_storeAt hstep)) (.refl _ _) hloop
  · rintro ⟨e', s₁, heval⟩
    obtain ⟨-, count, -, hcount, -⟩ := Expr.eval_eq_ok.1 heval
    exact ⟨count, hcount⟩
  · rintro ⟨count, hcount⟩
    obtain ⟨xs, s₁, -, heval, -⟩ := Expr.eval_ok he hcount fun env henv => by
      obtain ⟨old, x, -, hx, -⟩ := hcomponents env ((hrange env).2 henv)
      exact ⟨x, hx⟩
    exact ⟨_, s₁, heval⟩
  · intro e' s₁ heval
    obtain ⟨-, count, xs, hcount, hxs, rfl, rfl⟩ := Expr.eval_eq_ok.1 heval
    have hregion₁ := Nat.le_trans hregion (Memory.within_own s.memory xs).size_le
    refine ⟨xs, _, rfl, (update_eq_ok hchecked).2
      ⟨permutation, (m'.own xs).1, hmatch, Memory.overlaps_own hregion xs, ?_, rfl⟩, rfl⟩
    refine (store_eq_none hregion₁ fun m₁ _ => rfl).2 ?_
    rw [loop_evaluated hplan he hnodup (fun env => (hrange env).1) hcount hxs]
    exact loop_own hregion xs hloop

/-- The transpose of one 2 × 2 array is subtracted from another that lies next to it. -/
theorem update_eq_evaluated_transpose :
    ∃ (factors : List Concept) (t : Target) (e : Expr (Binary .double)) (_ : Expr.Built e)
      (s s' : Session (Binary .double)),
      Target.of ⟨0, 4, true⟩ [.ofChar 'i', .ofChar 'j'] factors false = .ok t ∧
      s.memory.Addressable ∧ 0 + 4 ≤ s.memory.cells.size ∧ t.update .sub e s = .ok () s' ∧
      (∃ old x, t.componentAt s.memory (fun i => if i = .ofChar 'i' then 1 else 0) = .ok old ∧
        e.component s.memory [0, 1] = .ok x ∧
        t.componentAt s'.memory (fun i => if i = .ofChar 'i' then 1 else 0) = .ok (old - x)) ∧
      s.memory.SameOutside ⟨0, 4, true⟩ s'.memory ∧
      ∃ e' s₁ xs s₂, e.eval s = .ok e' s₁ ∧ s₁.memory = (s.memory.own xs).1 ∧
        t.update .sub e' s₁ = .ok () s₂ ∧ s₂.memory = (s'.memory.own xs).1 := by
  let space := Concept.realSpace 2
  let t : {t // Target.of ⟨0, 4, true⟩ [.ofChar 'i', .ofChar 'j'] [space, space] false = .ok t} := ⟨_, rfl⟩
  let e : {e : Expr (Binary .double) // Expr.indexed (.readOnly ⟨4, 4, true⟩) [.ofChar 'j', .ofChar 'i']
    [space, space] = .ok e} := ⟨_, rfl⟩
  let s : Session (Binary .double) := ⟨⟨8, ((List.range 8).map fun k => .ofInt k).toArray⟩, []⟩
  let run : {s' // t.1.update .sub e.1 s = .ok () s'} := ⟨_, rfl⟩
  have hm : s.memory.Addressable := ⟨by decide, by decide⟩
  have hregion : 0 + 4 ≤ s.memory.cells.size := by decide
  let c := Expr.Built.indexed _ _ _ e.2
  obtain ⟨hcomponents, hframe, hevaluable, heval⟩ := update_eq_evaluated t.2 c hm hregion run.2
  obtain ⟨e', s₁, he'⟩ := hevaluable.2 ⟨4, rfl⟩
  obtain ⟨xs, s₂, hmemory, hupdate, hsame⟩ := heval e' s₁ he'
  refine ⟨_, t.1, e.1, c, s, run.1, t.2, hm, hregion, run.2, hcomponents _ ?_, hframe, e', s₁, xs, s₂, he',
    hmemory, hupdate, hsame⟩
  decide

/-- The product of a vector and of a matrix without columns is assigned to a target whose first index is that
of the columns. There is no component to write. But those of the product are counted from its first index on,
and two extents of 4294967296 are too much for a count. -/
theorem update_ok_eval_overflow :
    ∃ (factors : List Concept) (t : Target) (e : Expr (Binary .double)) (s s' : Session (Binary .double)),
      Target.of ⟨0, 0, true⟩ [.ofChar 'k', .ofChar 'i', .ofChar 'j'] factors false = .ok t ∧
      Expr.Ready s.memory e ∧ s.memory.Addressable ∧ 0 + 0 ≤ s.memory.cells.size ∧
      t.update .assign e s = .ok () s' ∧ e.free.map BoundIndex.dim = [4294967296, 4294967296, 0] ∧
      e.eval s = .error (.fault .overflow) s := by
  let long := Concept.realSpace 4294967296
  let empty := Concept.realSpace 0
  let zeros (n : Nat) : Storage (Binary .double) := .computed n fun _ => .ok 0
  let s : Session (Binary .double) := ⟨⟨8, #[]⟩, []⟩
  let t : {t // Target.of ⟨0, 0, true⟩ [.ofChar 'k', .ofChar 'i', .ofChar 'j'] [empty, long, long] false =
    .ok t} := ⟨_, rfl⟩
  let a : {a // Expr.indexed (zeros 4294967296) [.ofChar 'i'] [long] = .ok a} := ⟨_, rfl⟩
  let b : {b // Expr.indexed (zeros 0) [.ofChar 'j', .ofChar 'k'] [long, empty] = .ok b} := ⟨_, rfl⟩
  let e : {e // a.1.mul b.1 = .ok e} := ⟨_, rfl⟩
  have ha : ∀ n < Count.limit, (zeros n).Fills s.memory [Concept.realSpace n] := fun n hn =>
    ⟨fun _ _ => ⟨0, rfl⟩, by simpa using Concept.based_realSpace n, (Nat.mul_one n).symm, hn⟩
  have hb : (zeros 0).Fills s.memory [long, empty] :=
    ⟨fun _ _ => ⟨0, rfl⟩, by simpa using ⟨Concept.based_realSpace _, Concept.based_realSpace _⟩, rfl,
      show 0 < Count.limit by decide⟩
  have hready : Expr.Ready s.memory e.1 := ⟨.product (.indexed _ _ _ a.2) (.indexed _ _ _ b.2) e.2,
    ha _ (by decide), hb⟩
  have hfree : e.1.free = [⟨.ofChar 'i', long, 4294967296⟩, ⟨.ofChar 'j', long, 4294967296⟩,
    ⟨.ofChar 'k', empty, 0⟩] := rfl
  have hmatch : matchFree t.1.free e.1.free = .ok [1, 2, 0] := by
    rw [hfree]
    rfl
  have hdims : e.1.free.map BoundIndex.dim = [4294967296, 4294967296, 0] := rfl
  have hcount : Count.product (e.1.free.map BoundIndex.dim) = .error .overflow := by
    rw [hdims]
    decide
  have hstore : t.1.store .assign [1, 2, 0] e.1 s.memory = (s.memory, none) := rfl
  exact ⟨_, t.1, e.1, s, _, t.2, hready, ⟨by decide, by decide⟩, by decide,
    (update_eq_ok rfl).2 ⟨_, _, hmatch, rfl, hstore, rfl⟩, hdims, Expr.eval_of_uncounted (by decide) hcount⟩

end Target

end TensorCalculus
