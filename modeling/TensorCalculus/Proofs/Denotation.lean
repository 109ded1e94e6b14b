import TensorCalculus.Proofs.Invariant
import TensorCalculus.Proofs.Named

/-!
# Named Einstein summation

`Expr.Built.denote` reads the calls of constructors that an expression was made by as index notation: it
gives the value at an assignment of values to symbols, with no positions, and an index that is summed gets
its value by extending the assignment. Evaluation by position agrees with it, faults included and for every
assignment.
-/

namespace TensorCalculus

/-! ### What a factor says -/

namespace Concept

/-- The dimension of a space that has one. -/
def extent (c : Concept) : Nat :=
  match c.dimension with
  | .ok d => d
  | .error _ => 0

/-- The kind of power that a space is. -/
def powerKind (c : Concept) : PowerKind :=
  if StructureClass.basedExteriorPower.hasUnique c then .exterior else .symmetric

theorem extent_of_ok {c : Concept} {d : Nat} (h : c.dimension = .ok d) : c.extent = d := by
  rw [extent, h]

theorem map_extent {factors : List Concept} {dims : List Nat}
    (h : List.Forall₂ (fun c d => c.dimension = .ok d) factors dims) : factors.map extent = dims := by
  rw [← List.forall₂_eq_eq_eq, List.forall₂_map_left_iff]
  exact h.imp fun _ _ => extent_of_ok

theorem powerKind_eq {c power : Concept} {kind : PowerKind}
    (hpower : StructureClass.basedPower.uniqueOf c = .ok power)
    (hkind : PowerKind.of? power.shape = some kind) : c.powerKind = kind := by
  have hinstances := uniqueOf_eq_ok.1 hpower
  have hexterior : StructureClass.basedExteriorPower.instances c =
      [power].filter StructureClass.basedExteriorPower.holds := by
    rw [← hinstances, StructureClass.instances_eq, StructureClass.instances_eq, List.filter_filter]
    refine List.filter_congr fun a _ => ?_
    by_cases ha : a.shape = .basedExteriorPower <;>
      simp [StructureClass.holds, StructureClass.basedExteriorPower, StructureClass.basedPower, ha]
  have hmember : power.shape = .basedSymmetricPower ∨ power.shape = .basedExteriorPower := by
    have hmem : power ∈ StructureClass.basedPower.instances c := by rw [hinstances]; simp
    rw [StructureClass.instances_eq] at hmem
    have := (List.mem_filter.1 hmem).2
    simpa [StructureClass.holds, StructureClass.basedPower] using this
  rw [powerKind, StructureClass.hasUnique, Criterion.hasUnique, ← StructureClass.instances, hexterior]
  rcases hmember with hshape | hshape
  · rw [hshape] at hkind
    cases hkind
    simp [StructureClass.holds, StructureClass.basedExteriorPower, hshape]
  · rw [hshape] at hkind
    cases hkind
    simp [StructureClass.holds, StructureClass.basedExteriorPower, hshape]

end Concept

/-- The kind of power that a symbol ranges over. -/
def kindOf (free : List BoundIndex) (i : Index) : PowerKind :=
  match boundOf free i with
  | some b => b.factor.powerKind
  | none => .symmetric

namespace Expr
variable {α : Type} [Scalar α]

namespace Built

/-- The value at an assignment of values to symbols. -/
def denote : {e : Expr α} → Built e → Memory α → Assignment → Checked α
  | _, .indexed storage written factors _, m, env =>
    let dims := factors.map Concept.extent
    let names := repeatedSymbols written
    sumOver names (names.map (extentOf (boundIndices written factors dims)))
      (fun env => do m.read storage (← Box.flatten (written.map env) dims)) env
  | _, @evaluated _ _ inner _ c s _ _, _, env => do
    let dims := inner.free.map BoundIndex.dim
    let components ← (Box.multiIndices dims).mapM fun values =>
      c.denote s.memory (env.extend inner.freeSymbols values)
    entry components (← Box.flatten (inner.freeSymbols.map env) dims)
  | _, .sum op l r _, m, env => do
    let x ← l.denote m env
    let y ← r.denote m env
    match op with
    | .plus => return x + y
    | .minus => return x - y
  | _, .scaled c scalar, m, env => do return (← c.denote m env) * scalar
  | _, .divided c scalar, m, env => do return (← c.denote m env) / scalar
  | _, @product _ _ left right _ l r _, m, env =>
    let names := Occurrence.common left.freeSymbols right.freeSymbols
    sumOver names (names.map (extentOf left.free))
      (fun env => do return (← l.denote m env) * (← r.denote m env)) env
  | _, @bundled _ _ inner _ c indices into _, m, env => do
    let (values, _) ← Box.digits (indices.map (extentOf inner.free)) (env into)
    c.denote m (env.extend indices values)
  | e, .split c index into _, m, env => do
    let flat ← Box.flatten (into.map env) (into.map (extentOf e.free))
    c.denote m (env.extend [index] [flat])
  | _, @embedded _ _ inner _ c index into embedding _, m, env => do
    let kind := kindOf inner.free index
    let (sign, sorted) := kind.canonicalize (into.map env)
    if sign = 0 then return 0
    let rank ← kind.rank sorted
    let x ← c.denote m (env.extend [index] [rank])
    return x * Scalar.ofDouble (embedding.coefficient sign (Power.rearrangements sorted).length)
  | _, .coembedded c indices into kind embedding _, m, env => do
    let tuple ← kind.unrank indices.length (env into)
    let sum ← (Power.rearrangements tuple).foldlM (fun sum t => do
      let x ← c.denote m (env.extend indices t)
      return if (kind.canonicalize t).1 = 1 then sum + x else sum - x) 0
    return sum * Scalar.ofDouble (embedding.coefficient 1 (Power.rearrangements tuple).length)
  | _, .reindexed c domain codomain _, m, env => c.denote m fun i => env (newName domain codomain i)

end Built

/-- A renamed expression is the one that it came from, at the values of the new names. -/
theorem Sound.componentAt_reindex {e inner : Expr α} (hinner : inner.Sound) {domain codomain : List Index}
    (h : inner.reindex domain codomain = .ok e) (m : Memory α) (env : Assignment) :
    e.componentAt m env = inner.componentAt m fun i => env (newName domain codomain i) := by
  obtain ⟨ρ, -, hρ, rfl⟩ := hinner.exists_relabel h
  rw [componentAt, componentAt, component_relabel, free_relabel, symbols_relabel, List.map_map]
  exact congrArg _ (List.map_congr_left fun i hi => congrArg env (hρ i hi))

/-! ### Evaluation by position agrees with evaluation by name -/

section Agreement
variable {e left right inner : Expr α}

theorem component_eq_denote (c : Built e) (m : Memory α) (env : Assignment) :
    e.component m (e.freeSymbols.map env) = c.denote m env := by
  show e.componentAt m env = c.denote m env
  induction c generalizing m env with
  | indexed storage written factors h =>
    obtain ⟨l, rfl, rfl, rfl, hl⟩ := indexed_eq_ok h
    rw [componentAt_leaf m env hl, ← Concept.map_extent hl.dimension]
    rfl
  | @evaluated inner e c s s' h ih =>
    obtain ⟨-, count, xs, hcount, hxs, rfl, -⟩ := eval_eq_ok.1 h
    have hdenote : (Box.multiIndices (inner.free.map BoundIndex.dim)).mapM (fun values =>
        c.denote s.memory (env.extend inner.freeSymbols values)) = .ok xs.toList := by
      rw [← (components_eq_ok hcount).1 hxs]
      refine mapM_congr fun values hvalues => ?_
      have hextend := map_extend_of_mem_multiIndices c.sound.nodup (by simp) hvalues env
      rw [← ih, componentAt]
      nth_rw 2 [hextend]
      rfl
    rw [componentAt_evaluated, Built.denote, hdenote]
    rfl
  | sum op l r h ihl ihr =>
    obtain ⟨plan, rfl, hplan⟩ := add_eq_ok h
    rw [componentAt_sum m env hplan l.sound.toWellFormed, ihl, ihr]
    rfl
  | scaled c scalar ih =>
    show (do return (← componentAt m _ env) * scalar) = _
    rw [ih]
    rfl
  | divided c scalar ih =>
    show (do return (← componentAt m _ env) / scalar) = _
    rw [ih]
    rfl
  | product l r h ihl ihr =>
    obtain ⟨plan, rfl, hplan⟩ := mul_eq_ok h l.sound.nodup r.sound.nodup
    rw [componentAt_product m env hplan l.sound.toWellFormed r.sound.toWellFormed]
    simp only [ihl, ihr]
    rfl
  | bundled c indices into h ih =>
    obtain ⟨plan, rfl, hplan⟩ := bundleInto_eq_ok h c.sound.nodup
    rw [componentAt_bundle m env hplan c.sound.toWellFormed]
    simp only [ih]
    rfl
  | split c index into h ih =>
    obtain ⟨plan, rfl, hplan⟩ := splitInto_eq_ok h c.sound.nodup
    rw [componentAt_split m env hplan c.sound.toWellFormed]
    simp only [ih]
    rfl
  | @embedded inner e c index into embedding h ih =>
    obtain ⟨plan, rfl, hplan⟩ := embedInto_eq_ok h c.sound.nodup
    have hkind : kindOf inner.free index = plan.kind := by
      obtain ⟨b, hb, hindex, power, base, dim, hpower, hkind, -⟩ := hplan.free_eq
      rw [kindOf, (boundOf_eq_some c.sound.nodup).2 ⟨hb, hindex⟩]
      exact Concept.powerKind_eq hpower hkind
    rw [componentAt_embed m env hplan c.sound.toWellFormed, Built.denote, hkind]
    simp only [ih]
  | coembedded c indices into kind embedding h ih =>
    obtain ⟨plan, rfl, hplan⟩ := coembedInto_eq_ok h c.sound.nodup
    rw [componentAt_coembed m env hplan c.sound.toWellFormed]
    simp only [ih]
    rfl
  | reindexed c domain codomain h ih =>
    rw [c.sound.componentAt_reindex h, ih]
    rfl

end Agreement

end Expr

end TensorCalculus
