import TensorCalculus.Proofs.Denotation
import TensorCalculus.Proofs.Frame

/-!
# Values in range

`InRange free env` holds if `env` gives each free symbol a value below the dimension of its factor.
Extending an assignment by values of a box keeps it in range, as long as the extents of the box are
those of the symbols (`InRange.extend`). `Expr.Built.Filled` and `Expr.Ready` say that all arrays that an
expression was made over are there. An index that a plan makes ranges over one of the families of based
vector spaces if those of the operand do.
-/

namespace TensorCalculus

open TensorCalculus.Expr (freeAt)

/-- Every free symbol has a value below its dimension. -/
def InRange (free : List BoundIndex) (env : Assignment) : Prop := ∀ b ∈ free, env b.index < b.dim

instance (free : List BoundIndex) (env : Assignment) : Decidable (InRange free env) :=
  inferInstanceAs (Decidable (∀ b ∈ free, env b.index < b.dim))

section InRange
variable {free : List BoundIndex} {env : Assignment} {is : List Index} {values : List Nat}

theorem inBox_iff_inRange :
    Box.InBox ((symbols free).map env) (free.map BoundIndex.dim) ↔ InRange free env := by
  rw [Box.InBox, symbols, List.map_map, List.forall₂_map_left_iff, List.forall₂_map_right_iff,
    List.forall₂_same]
  rfl

/-- Values of the box are those of some assignment. -/
theorem exists_inRange (hfree : (symbols free).Nodup) (h : Box.InBox values (free.map BoundIndex.dim)) :
    ∃ env, (symbols free).map env = values ∧ InRange free env := by
  have hlength : (symbols free).length = values.length := by
    rw [h.length, length_symbols, List.length_map]
  have hvalues : (symbols free).map (Assignment.extend (fun _ => 0) (symbols free) values) = values :=
    Assignment.map_extend hfree hlength
  exact ⟨_, hvalues, inBox_iff_inRange.1 (hvalues.symm ▸ h)⟩

theorem InRange.inBox (h : InRange free env) (hfree : (symbols free).Nodup)
    (his : ∀ i ∈ is, i ∈ symbols free) : Box.InBox (is.map env) (is.map (extentOf free)) := by
  rw [Box.InBox, List.forall₂_map_left_iff, List.forall₂_map_right_iff, List.forall₂_same]
  intro i hi
  obtain ⟨b, hb, rfl⟩ := mem_symbols.1 (his i hi)
  rw [extentOf_index hfree hb]
  exact h b hb

/-- Values of a box are below the extents. -/
theorem extend_lt {extent : Index → Nat} (hnodup : is.Nodup) (h : Box.InBox values (is.map extent))
    {i : Index} (hi : i ∈ is) : env.extend is values i < extent i := by
  have hlength : is.length = values.length := by rw [h.length, List.length_map]
  have hvalues : is.map (env.extend is values) = values := Assignment.map_extend hnodup hlength
  rw [← hvalues, Box.InBox, List.forall₂_map_left_iff, List.forall₂_map_right_iff, List.forall₂_same] at h
  exact h i hi

theorem InRange.extend (hfree : (symbols free).Nodup) (hnodup : is.Nodup)
    (hother : ∀ b ∈ free, b.index ∉ is → env b.index < b.dim)
    (h : Box.InBox values (is.map (extentOf free))) : InRange free (env.extend is values) := by
  intro b hb
  by_cases hi : b.index ∈ is
  · rw [← extentOf_index hfree hb]
    exact extend_lt hnodup h hi
  · rw [Assignment.extend_of_not_mem hi]
    exact hother b hb hi

end InRange

/-! ### Arrays that are all there -/

section Filled
variable {α : Type}

/-- The array can be read: it lies in memory, or computes all its components. -/
def Storage.Valid (m : Memory α) : Storage α → Prop
  | .writable r | .readOnly r => r.start + r.count ≤ m.cells.size
  | .computed n generate => ∀ k < n, ∃ x, generate ⟨k, n⟩ = .ok x

theorem Memory.read_ok {m : Memory α} {s : Storage α} (h : s.Valid m) {k : Nat} (hk : k < s.count) :
    ∃ x, m.read s k = .ok x := by
  cases s with
  | writable r | readOnly r => exact readRegion_ok h hk
  | computed n generate =>
    have hk : k < n := hk
    obtain ⟨x, hx⟩ := h k hk
    exact ⟨x, by rw [Memory.read, if_pos hk, hx]⟩

theorem Storage.Valid.read_eq {m m' : Memory α} {s : Storage α} (h : s.Valid m) (hm : m.Within m') :
    m'.read s = m.read s := by
  cases s with
  | writable r | readOnly r => exact hm.readRegion_eq h
  | computed n generate => rfl

/-- The array holds exactly the components of a tensor over the factors, which are based vector spaces. -/
structure Storage.Fills (s : Storage α) (m : Memory α) (factors : List Concept) : Prop where
  valid : s.Valid m
  based : ∀ c ∈ factors, c.Based
  count_eq : s.count = Box.size (factors.map Concept.extent)
  count_lt : s.count < Count.limit

theorem Storage.Fills.within {s : Storage α} {m m' : Memory α} {factors : List Concept}
    (h : s.Fills m factors) (hm : m.Within m') : s.Fills m' factors := by
  refine ⟨?_, h.based, h.count_eq, h.count_lt⟩
  cases s with
  | writable r | readOnly r => exact Nat.le_trans h.valid hm.size_le
  | computed n generate => exact h.valid

end Filled

namespace Expr.Built
variable {α : Type} [Scalar α]

/-- Every array in the expression holds the components of a tensor. What was evaluated before was so in
the memory of that time. -/
def Filled : {e : Expr α} → Built e → Memory α → Prop
  | _, .indexed storage _ factors _, m => storage.Fills m factors
  | _, .evaluated c s _ _, _ => c.Filled s.memory
  | _, .sum _ l r _, m => l.Filled m ∧ r.Filled m
  | _, .scaled c _, m => c.Filled m
  | _, .divided c _, m => c.Filled m
  | _, .product l r _, m => l.Filled m ∧ r.Filled m
  | _, .bundled c _ _ _, m => c.Filled m
  | _, .split c _ _ _, m => c.Filled m
  | _, .embedded c _ _ _ _, m => c.Filled m
  | _, .coembedded c _ _ _ _ _, m => c.Filled m
  | _, .reindexed c _ _ _, m => c.Filled m

theorem Filled.within {m m' : Memory α} {e : Expr α} {c : Built e} (h : c.Filled m) (hm : m.Within m') :
    c.Filled m' := by
  induction c with
  | indexed storage written factors hindexed => exact Storage.Fills.within h hm
  | evaluated c s s' heval _ => exact h
  | sum op l r hadd ihl ihr => exact ⟨ihl h.1, ihr h.2⟩
  | product l r hmul ihl ihr => exact ⟨ihl h.1, ihr h.2⟩
  | scaled c scalar ih | divided c scalar ih => exact ih h
  | bundled c indices into hbundle ih => exact ih h
  | split c index into hsplit ih => exact ih h
  | embedded c index into embedding hembed ih => exact ih h
  | coembedded c indices into kind embedding hcoembed ih => exact ih h
  | reindexed c domain codomain hreindex ih => exact ih h

end Expr.Built

/-- The expression was made by the constructors over arrays that hold the components of a tensor in the
memory. -/
def Expr.Ready {α : Type} [Scalar α] (m : Memory α) (e : Expr α) : Prop := ∃ c : Built e, c.Filled m

theorem Expr.Ready.within {α : Type} [Scalar α] {m m' : Memory α} {e : Expr α} (h : Ready m e)
    (hm : m.Within m') : Ready m' e := by
  obtain ⟨c, hc⟩ := h
  exact ⟨c, hc.within hm⟩

/-! ### Dimensions of the indices -/

section Bound
variable {written : List Index} {factors : List Concept} {dims : List Nat} {b : BoundIndex}

theorem sized_of_getElem? (hfactors : ∀ p ∈ factors.zip dims, Concept.Sized p.1 p.2) {p d : Nat}
    {c : Concept} (hfactor : factors[p]? = some c) (hdim : dims[p]? = some d) : c.Sized d :=
  hfactors (c, d) (List.mem_of_getElem? (List.getElem?_zip_eq_some.2 ⟨hfactor, hdim⟩))

theorem sized_boundIndices (hfactors : ∀ p ∈ factors.zip dims, Concept.Sized p.1 p.2)
    (h : b ∈ boundIndices written factors dims) : b.factor.Sized b.dim := by
  obtain ⟨p, -, hfactor, hdim⟩ := mem_boundIndices h
  exact sized_of_getElem? hfactors hfactor hdim

end Bound

/-- Factors whose dimensions were found are sized by them. -/
theorem sized_zip {factors : List Concept} {dims : List Nat}
    (hdims : List.Forall₂ (fun c d => c.dimension = .ok d) factors dims)
    (h : ∀ c ∈ factors, ∃ n, c.Sized n) : ∀ p ∈ factors.zip dims, Concept.Sized p.1 p.2 := by
  induction hdims with
  | nil => simp
  | @cons c d factors dims hc _ ih =>
    intro p hp
    rw [List.zip_cons_cons] at hp
    rcases List.mem_cons.1 hp with rfl | hp
    · obtain ⟨n, hn⟩ := h c (by simp)
      exact hn.unique hc ▸ hn
    · exact ih (fun c hc => h c (by simp [hc])) p hp

theorem forall₂_dimension_unique {factors : List Concept} {dims dims' : List Nat}
    (hdims : List.Forall₂ (fun c d => c.dimension = .ok d) factors dims)
    (hlength : factors.length = dims'.length) (h : ∀ p ∈ factors.zip dims', Concept.Sized p.1 p.2) :
    dims = dims' := by
  induction hdims generalizing dims' with
  | nil => exact (List.length_eq_zero_iff.1 hlength.symm).symm
  | @cons c d factors dims hc _ ih =>
    match dims', hlength with
    | d' :: dims', hlength =>
      have hd := (h (c, d') (by simp)).unique hc
      rw [← hd, ih (by simpa using hlength) fun p hp => h p (by simp [hp])]

/-- Expressions that are added or assigned have their symbols in the same ranges. -/
theorem SumPlan.Matches.inRange_iff {plan : SumPlan} {left right : List BoundIndex}
    (h : plan.Matches left right) (hleft : (symbols left).Nodup) (hright : (symbols right).Nodup)
    (hdims : ∀ b ∈ left, b.factor.dimension = .ok b.dim)
    (hdims' : ∀ b ∈ right, b.factor.dimension = .ok b.dim) {env : Assignment} :
    InRange left env ↔ InRange right env := by
  have hpartner : ∀ b ∈ right, ∃ c ∈ left, c.index = b.index ∧ c.dim = b.dim := by
    intro b hb
    obtain ⟨c, hc, hindex, hfactor⟩ := h.factor b hb
    exact ⟨c, hc, hindex, Except.ok.inj ((hdims c hc).symm.trans (hfactor ▸ hdims' b hb))⟩
  constructor
  · intro henv b hb
    obtain ⟨c, hc, hindex, hdim⟩ := hpartner b hb
    rw [← hindex, ← hdim]
    exact henv c hc
  · intro henv c hc
    have hperm : (symbols right).Perm (symbols left) :=
      (List.subperm_of_subset hright fun i hi => h.located.mem_names hi).perm_of_length_le (by
        rw [length_symbols, length_symbols, h.length_eq])
    obtain ⟨b, hb, hindex⟩ := mem_symbols.1 (hperm.mem_iff.2 (mem_symbols.2 ⟨c, hc, rfl⟩))
    obtain ⟨c', hc', hindex', hdim⟩ := hpartner b hb
    have hsame : c.dim = c'.dim := by
      rw [← extentOf_index hleft hc, ← extentOf_index hleft hc', hindex', hindex]
    rw [hsame, hdim, ← hindex]
    exact henv b hb

section Plans
variable {inner : List BoundIndex} {indices into : List Index} {index : Index}

/-- The new index of a bundle has as many values as the bundled ones together. -/
theorem BundlePlan.Bundles.sized {plan : BundlePlan} (h : plan.Bundles inner indices index)
    (hnodup : (symbols inner).Nodup) (hinner : ∀ b ∈ inner, b.factor.Sized b.dim) :
    ∃ factor dim, plan.free = without inner indices ++ [⟨index, factor, dim⟩] ∧ factor.Sized dim ∧
      Box.size (indices.map (extentOf inner)) = dim := by
  obtain ⟨factor, dim, hfactor, hdim, hfree⟩ := h.free_eq
  have hdims := h.dims_freeAt hnodup
  have hzip : ∀ p ∈ ((freeAt inner plan.bundled).map BoundIndex.factor).zip plan.dims,
      Concept.Sized p.1 p.2 := by
    rw [hdims, List.zip_map']
    intro p hp
    obtain ⟨b, hb, rfl⟩ := List.mem_map.1 hp
    exact hinner b (mem_of_mem_freeAt hb)
  obtain ⟨n, hn, hsized⟩ := Concept.sized_basedTensorProduct (by rw [hdims]; simp) hzip hfactor
  obtain rfl : n = dim := Except.ok.inj (hn.symm.trans hdim)
  exact ⟨factor, n, hfree, hsized, h.dims_eq ▸ (Count.product_eq_ok hdim).1⟩

/-- The new indices of a split have together as many values as the index that is split. -/
theorem SplitPlan.Splits.sized {plan : SplitPlan} (h : plan.Splits inner index into)
    (hinner : ∀ b ∈ inner, b.factor.Sized b.dim) :
    ∃ b ∈ inner, b.index = index ∧ Box.size plan.dims = b.dim ∧ b.dim < Count.limit ∧
      ∃ factors, plan.free = without inner [index] ++ boundIndices into factors plan.dims ∧
        ∀ p ∈ factors.zip plan.dims, Concept.Sized p.1 p.2 := by
  obtain ⟨b, hb, hindex, product, factors, hproduct, hfactors, -, hdims, hfree⟩ := h.free_eq
  obtain ⟨dims, hlength, hzip, hn⟩ := (hinner b hb).of_product hproduct hfactors
  obtain rfl := forall₂_dimension_unique hdims hlength hzip
  obtain ⟨hsize, hlt⟩ := Count.product_eq_ok hn
  exact ⟨b, hb, hindex, hsize, hlt, factors, hfree, hzip⟩

/-- The index that is embedded has as many values as the power has components. -/
theorem EmbedPlan.Embeds.sized {plan : EmbedPlan} {embedding : Embedding}
    (h : plan.Embeds inner index into embedding) (hinner : ∀ b ∈ inner, b.factor.Sized b.dim) :
    ∃ b ∈ inner, b.index = index ∧ ∃ base dim,
      plan.free = (without inner [index] ++ into.map fun i => ⟨i, base, dim⟩) ∧ base.Sized dim ∧
      plan.kind.dimension dim into.length = .ok b.dim := by
  obtain ⟨b, hb, hindex, power, base, dim, hpower, hkind, hdegree, hbase, hdim, hfree⟩ := h.free_eq
  obtain ⟨d, hd, hn⟩ := (hinner b hb).of_power hpower hkind hdegree hbase
  obtain rfl := hd.unique hdim
  exact ⟨b, hb, hindex, base, d, hfree, hd, hn⟩

/-- The new index of a merge has as many values as the power has components. -/
theorem CoembedPlan.Merges.sized {plan : CoembedPlan} {kind : PowerKind} {embedding : Embedding}
    (h : plan.Merges inner indices index kind embedding) (hnodup : (symbols inner).Nodup)
    (hinner : ∀ b ∈ inner, b.factor.Sized b.dim) :
    ∃ d power dim, plan.free = without inner indices ++ [⟨index, power, dim⟩] ∧ power.Sized dim ∧
      kind.dimension d indices.length = .ok dim ∧ ∀ i ∈ indices, extentOf inner i = d := by
  obtain ⟨base, power, dim, hbase, hpower, hdim, hfree⟩ := h.free_eq
  have hmerged : ∀ i ∈ indices, ∃ b ∈ inner, b.index = i ∧ b.factor = base := by
    intro i hi
    rw [← symbols_freeAt h.located] at hi
    obtain ⟨b, hb, rfl⟩ := mem_symbols.1 hi
    exact ⟨b, mem_of_mem_freeAt hb, rfl, hbase b hb⟩
  obtain ⟨i, is, rfl⟩ := List.exists_cons_of_ne_nil h.ne_nil
  obtain ⟨b, hb, -, hfactor⟩ := hmerged i (by simp)
  have hsized : base.Sized b.dim := hfactor ▸ hinner b hb
  obtain ⟨n, hn, hpowerSized⟩ := Concept.sized_basedPower hsized hpower
  obtain rfl := hpowerSized.unique hdim
  refine ⟨b.dim, power, n, hfree, hpowerSized, hn, fun j hj => ?_⟩
  obtain ⟨b', hb', rfl, hfactor'⟩ := hmerged j hj
  have hsized' : base.Sized b'.dim := hfactor' ▸ hinner b' hb'
  rw [extentOf_index hnodup hb', hsized'.unique hsized.dimension_eq]

end Plans

end TensorCalculus
