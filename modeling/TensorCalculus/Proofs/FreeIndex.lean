import Mathlib.Data.List.Nodup
import TensorCalculus.Expr.Build
import TensorCalculus.Proofs.Occurrence
import TensorCalculus.Proofs.Slots

/-!
# Lists of free indices

What a list of free indices says of a symbol (`boundOf`, `extentOf`), and which symbols stand at the
positions that the checks of an expression find.
-/

namespace TensorCalculus

open TensorCalculus.Expr (freeAt freeWithout otherPositions)

/-- The first index of the list with the given symbol. -/
def boundOf (free : List BoundIndex) (i : Index) : Option BoundIndex :=
  free.find? fun b => b.index == i

/-- The free indices next to those with the given symbols. -/
def without (free : List BoundIndex) (is : List Index) : List BoundIndex :=
  free.filter fun b => !is.contains b.index

/-- The number of values of a symbol. -/
def extentOf (free : List BoundIndex) (i : Index) : Nat :=
  ((boundOf free i).map BoundIndex.dim).getD 0

section Symbols
variable {free : List BoundIndex} {b : BoundIndex} {i : Index} {p : Nat}

@[simp] theorem length_symbols : (symbols free).length = free.length := List.length_map ..

@[simp] theorem symbols_append (xs ys : List BoundIndex) :
    symbols (xs ++ ys) = symbols xs ++ symbols ys := List.map_append

theorem symbols_map {γ : Type} (f : γ → BoundIndex) (xs : List γ) :
    symbols (xs.map f) = xs.map fun x => (f x).index := List.map_map

theorem getElem?_symbols : (symbols free)[p]? = free[p]?.map BoundIndex.index := List.getElem?_map

theorem mem_symbols : i ∈ symbols free ↔ ∃ b ∈ free, b.index = i := List.mem_map

theorem index_mem_symbols (h : b ∈ free) : b.index ∈ symbols free := List.mem_map_of_mem h

theorem symbols_filter (keep : Index → Bool) :
    symbols (free.filter fun b => keep b.index) = (symbols free).filter keep := by
  rw [symbols, symbols, List.filter_map]
  rfl

theorem boundOf_eq_some (hnodup : (symbols free).Nodup) : boundOf free i = some b ↔ b ∈ free ∧ b.index = i := by
  induction free with
  | nil => simp [boundOf]
  | cons c free ih =>
    obtain ⟨hc, hfree⟩ := List.nodup_cons.1 hnodup
    rw [boundOf, List.find?_cons]
    by_cases hci : c.index = i
    · subst hci
      simp only [beq_self_eq_true, Option.some.injEq]
      constructor
      · rintro rfl
        exact ⟨by simp, rfl⟩
      · rintro ⟨hb, hbc⟩
        rcases List.mem_cons.1 hb with rfl | hb
        · rfl
        · exact absurd (hbc ▸ index_mem_symbols hb) hc
    · rw [beq_eq_false_iff_ne.2 hci]
      simp only
      rw [← boundOf, ih hfree]
      constructor
      · exact fun h => ⟨by simp [h.1], h.2⟩
      · rintro ⟨hb, hbi⟩
        rcases List.mem_cons.1 hb with rfl | hb
        · exact absurd hbi hci
        · exact ⟨hb, hbi⟩

theorem boundOf_eq_getElem? (hp : (symbols free)[p]? = some i)
    (hleast : ∀ q < p, (symbols free)[q]? ≠ some i) : boundOf free i = free[p]? := by
  rw [getElem?_symbols, Option.map_eq_some_iff] at hp
  obtain ⟨b, hb, rfl⟩ := hp
  obtain ⟨hlt, hget⟩ := List.getElem?_eq_some_iff.1 hb
  rw [boundOf, hb, List.find?_eq_some_iff_getElem]
  refine ⟨by simp, p, hlt, hget, fun q hq => ?_⟩
  have hne := hleast q hq
  rw [getElem?_symbols, List.getElem?_eq_getElem (Nat.lt_trans hq hlt)] at hne
  simpa using hne

theorem extentOf_index (hnodup : (symbols free).Nodup) (h : b ∈ free) : extentOf free b.index = b.dim := by
  rw [extentOf, (boundOf_eq_some hnodup).2 ⟨h, rfl⟩]
  rfl

theorem map_extentOf {bs : List BoundIndex} (hnodup : (symbols free).Nodup) (h : ∀ b ∈ bs, b ∈ free) :
    (symbols bs).map (extentOf free) = bs.map BoundIndex.dim := by
  rw [symbols, List.map_map]
  exact List.map_congr_left fun b hb => extentOf_index hnodup (h b hb)

/-- Rows of indices of one list are told apart by their symbols. -/
theorem eq_of_symbols_eq {bs cs : List BoundIndex} (hnodup : (symbols free).Nodup) (hbs : ∀ b ∈ bs, b ∈ free)
    (hcs : ∀ c ∈ cs, c ∈ free) (h : symbols bs = symbols cs) : bs = cs := by
  have hbound : ∀ ds : List BoundIndex, (∀ d ∈ ds, d ∈ free) →
      (symbols ds).map (boundOf free) = ds.map some := by
    intro ds hds
    rw [symbols, List.map_map]
    exact List.map_congr_left fun d hd => (boundOf_eq_some hnodup).2 ⟨hds d hd, rfl⟩
  refine List.map_injective_iff.2 (fun _ _ => Option.some.inj) ?_
  rw [← hbound bs hbs, ← hbound cs hcs, h]

theorem mem_without {is : List Index} : b ∈ without free is ↔ b ∈ free ∧ b.index ∉ is := by
  simp [without]

theorem symbols_without (free : List BoundIndex) (is : List Index) :
    symbols (without free is) = (symbols free).filter fun i => !is.contains i :=
  symbols_filter fun i => !is.contains i

theorem mem_symbols_without {is : List Index} :
    i ∈ symbols (without free is) ↔ i ∈ symbols free ∧ i ∉ is := by
  simp [symbols_without]

theorem nodup_without (hnodup : (symbols free).Nodup) (is : List Index) :
    (symbols (without free is)).Nodup := by
  rw [symbols_without]
  exact hnodup.filter _

/-- Next to the new indices there are the old ones. -/
theorem without_append_symbols {new : List BoundIndex} (hfresh : ∀ i ∈ symbols new, i ∉ symbols free) :
    without (free ++ new) (symbols new) = free := by
  have hold : without free (symbols new) = free := by
    refine List.filter_eq_self.2 fun c hc => ?_
    have hnot : c.index ∉ symbols new := fun hmem => hfresh _ hmem (index_mem_symbols hc)
    simpa using hnot
  have hnew : without new (symbols new) = [] := by
    refine List.filter_eq_nil_iff.2 fun c hc => ?_
    simpa using index_mem_symbols hc
  refine (List.filter_append _ _).trans ?_
  show without free _ ++ without new _ = _
  rw [hold, hnew, List.append_nil]

theorem length_without_lt {is : List Index} (hi : i ∈ is) (hfree : i ∈ symbols free) :
    (without free is).length < free.length := by
  obtain ⟨b, hb, rfl⟩ := mem_symbols.1 hfree
  refine List.length_filter_lt_length_iff_exists.2 ⟨b, hb, ?_⟩
  simpa using hi

theorem length_without_add_le {is : List Index} (hnodup : (symbols free).Nodup) (his : is.Nodup)
    (hmem : ∀ i ∈ is, i ∈ symbols free) : (without free is).length + is.length ≤ free.length := by
  have happend : (symbols (without free is) ++ is).Nodup := by
    rw [List.nodup_append]
    exact ⟨nodup_without hnodup is, his, fun i hi j hj hij => (mem_symbols_without.1 hi).2 (hij ▸ hj)⟩
  have hsubset : symbols (without free is) ++ is ⊆ symbols free := by
    intro i hi
    rcases List.mem_append.1 hi with hi | hi
    · exact (mem_symbols_without.1 hi).1
    · exact hmem i hi
  simpa using (List.subperm_of_subset happend hsubset).length_le

end Symbols

/-! ### Parts of a list -/

section Parts
variable {bs cs : List BoundIndex} {is js : List Index} {i : Index}

theorem without_append : without (bs ++ cs) is = without bs is ++ without cs is := List.filter_append ..

theorem without_without : without (without bs is) js = without bs (is ++ js) := by
  simp only [without, List.filter_filter]
  refine List.filter_congr fun b _ => ?_
  by_cases hi : b.index ∈ is <;> by_cases hj : b.index ∈ js <;> simp [hi, hj]

theorem without_congr (h : ∀ b ∈ bs, b.index ∈ is ↔ b.index ∈ js) : without bs is = without bs js := by
  refine List.filter_congr fun b hb => ?_
  simp [h b hb]

theorem boundOf_without (hi : i ∉ is) : boundOf (without bs is) i = boundOf bs i := by
  rw [boundOf, without, List.find?_filter, boundOf]
  congr 1
  funext b
  by_cases hb : b.index = i
  · simp [hb, hi]
  · simp [hb]

theorem extentOf_without (hi : i ∉ is) : extentOf (without bs is) i = extentOf bs i := by
  rw [extentOf, boundOf_without hi, extentOf]

theorem extentOf_append_left (hi : i ∈ symbols bs) : extentOf (bs ++ cs) i = extentOf bs i := by
  obtain ⟨b, hb, hbi⟩ := mem_symbols.1 hi
  have hfound : (bs.find? fun b => b.index == i).isSome := List.find?_isSome.2 ⟨b, hb, by simp [hbi]⟩
  rw [extentOf, extentOf, boundOf, boundOf, List.find?_append, Option.or_of_isSome hfound]

theorem extentOf_append_right (hi : i ∉ symbols bs) : extentOf (bs ++ cs) i = extentOf cs i := by
  have hnone : bs.find? (fun b => b.index == i) = none :=
    List.find?_eq_none.2 fun b hb hbi => hi (mem_symbols.2 ⟨b, hb, beq_iff_eq.1 hbi⟩)
  rw [extentOf, extentOf, boundOf, boundOf, List.find?_append, hnone, Option.none_or]

theorem extentOf_perm (hbs : (symbols bs).Nodup) (h : bs.Perm cs) : extentOf bs i = extentOf cs i := by
  have hcs : (symbols cs).Nodup := (h.map _).nodup_iff.1 hbs
  have hbound : boundOf bs i = boundOf cs i := by
    ext b
    rw [boundOf_eq_some hbs, boundOf_eq_some hcs, h.mem_iff]
  rw [extentOf, hbound, extentOf]

end Parts

/-! ### Positions -/

/-- Positions read off a list of pairs of what stands where. -/
theorem located_map {γ : Type} {names : List Index} {xs : List γ} {f : γ → Nat} {g : γ → Index}
    (h : ∀ x ∈ xs, names[f x]? = some (g x)) : Located names (xs.map f) (xs.map g) := by
  rw [Located, List.forall₂_map_left_iff, List.forall₂_map_right_iff, List.forall₂_same]
  exact h

theorem map_fst_filter_zipIdx {γ : Type} (keep : γ → Bool) (xs : List γ) :
    (xs.zipIdx.filter fun p => keep p.1).map Prod.fst = xs.filter keep := by
  nth_rw 2 [← List.zipIdx_map_fst 0 xs]
  rw [List.filter_map]
  rfl

theorem filterMap_ite {γ δ : Type} (keep : γ → Bool) (f : γ → δ) (xs : List γ) :
    (xs.filterMap fun x => if keep x then some (f x) else none) = (xs.filter keep).map f := by
  rw [← List.filterMap_eq_map, List.filterMap_filter]
  rfl

/-- A list of entries that all have a value. -/
theorem forall₂_filterMap_some {γ δ : Type} {f : γ → Option δ} {R : γ → δ → Prop} {xs : List γ}
    (h : ∀ x ∈ xs, ∃ y, f x = some y ∧ R x y) : List.Forall₂ R xs (xs.filterMap f) := by
  induction xs with
  | nil => exact .nil
  | cons x xs ih =>
    obtain ⟨y, hy, hxy⟩ := h x (by simp)
    rw [List.filterMap_cons, hy]
    exact .cons hxy (ih fun z hz => h z (by simp [hz]))

section Positions
variable {free : List BoundIndex} {i : Index} {p : Nat} {ps : List Nat} {is : List Index}

theorem findIdx?_index (h : (free.findIdx? fun b => b.index == i) = some p) :
    (symbols free)[p]? = some i := by
  obtain ⟨hp, hpi, -⟩ := List.findIdx?_eq_some_iff_getElem.1 h
  rw [getElem?_symbols, List.getElem?_eq_getElem hp]
  simpa using hpi

theorem findIdx?_isSome : (free.findIdx? fun b => b.index == i).isSome ↔ i ∈ symbols free := by
  rw [List.findIdx?_isSome, mem_symbols]
  simp

theorem findFree_eq_ok (h : findFree free i = .ok p) : (symbols free)[p]? = some i := by
  unfold findFree at h
  split at h
  · next hp =>
    cases h
    exact findIdx?_index hp
  · cases h

theorem findFree_ok (h : i ∈ symbols free) : ∃ p, findFree free i = .ok p := by
  obtain ⟨p, hp⟩ := Option.isSome_iff_exists.1 (findIdx?_isSome.2 h)
  exact ⟨p, by rw [findFree, hp]⟩

theorem findAllFree_eq_ok (h : findAllFree free is = .ok ps) : Located (symbols free) ps is :=
  (mapM_eq_ok.1 h).flip.imp fun _ _ => findFree_eq_ok

theorem checkDistinct_eq_ok : checkDistinct is = .ok () ↔ is.Nodup := by
  rw [← Occurrence.firstRepeated?_eq_none, checkDistinct]
  split <;> simp_all

theorem checkRank_eq_ok {n : Nat} : checkRank n = .ok () ↔ n ≤ maxRank := by
  by_cases h : n > maxRank <;> simp [checkRank, h]; omega

theorem symbols_freeAt (h : Located (symbols free) ps is) : symbols (freeAt free ps) = is := by
  induction h with
  | nil => rfl
  | @cons p i ps is hp _ ih =>
    rw [getElem?_symbols, Option.map_eq_some_iff] at hp
    obtain ⟨b, hb, rfl⟩ := hp
    simp only [freeAt, symbols] at ih ⊢
    rw [List.filterMap_cons, hb, List.map_cons, ih]

theorem mem_of_mem_freeAt {b : BoundIndex} (h : b ∈ freeAt free ps) : b ∈ free := by
  obtain ⟨p, -, hp⟩ := List.mem_filterMap.1 h
  exact List.mem_of_getElem? hp

theorem located_freeAt (h : ∀ p ∈ ps, p < free.length) :
    Located (symbols free) ps (symbols (freeAt free ps)) := by
  rw [Located, symbols, symbols, List.forall₂_map_right_iff]
  refine forall₂_filterMap_some fun p hp => ?_
  have hget : free[p]? = some (free.get ⟨p, h p hp⟩) := List.getElem?_eq_getElem _
  exact ⟨_, hget, by rw [List.getElem?_map, hget, Option.map_some]⟩

theorem dims_freeAt (hnodup : (symbols free).Nodup) (h : Located (symbols free) ps is) :
    (freeAt free ps).map BoundIndex.dim = is.map (extentOf free) := by
  rw [← symbols_freeAt h, map_extentOf hnodup fun b => mem_of_mem_freeAt]

theorem mem_otherPositions {n : Nat} : p ∈ otherPositions n ps ↔ p < n ∧ p ∉ ps := by
  simp [otherPositions]

theorem filterMap_getElem?_range {γ : Type} (xs : List γ) :
    (List.range xs.length).filterMap (fun p => xs[p]?) = xs := by
  induction xs with
  | nil => rfl
  | cons x xs ih =>
    rw [List.length_cons, List.range_succ_eq_map, List.filterMap_cons, List.getElem?_cons_zero,
      List.filterMap_map]
    simp only [Function.comp_def, List.getElem?_cons_succ]
    rw [ih]

/-- What is left when the located indices are taken away. -/
theorem freeAt_otherPositions (hnodup : (symbols free).Nodup) (h : Located (symbols free) ps is) :
    freeAt free (otherPositions free.length ps) = without free is := by
  rw [freeAt, otherPositions, without, List.filterMap_filter]
  nth_rw 3 [← filterMap_getElem?_range free]
  rw [List.filter_filterMap]
  refine List.filterMap_congr fun p _ => ?_
  cases hb : free[p]? with
  | none => simp
  | some b =>
    have hp : (symbols free)[p]? = some b.index := by rw [getElem?_symbols, hb]; rfl
    have hmem : p ∈ ps ↔ b.index ∈ is := by
      constructor
      · intro hps
        obtain ⟨i, hi, hpi⟩ := h.exists_symbol hps
        rw [hp, Option.some.injEq] at hpi
        exact hpi ▸ hi
      · exact h.mem_of_getElem? hnodup hp
    by_cases hps : p ∈ ps
    · simp [hps, hmem.1 hps, Option.filter_some]
    · simp [hps, mt hmem.2 hps, Option.filter_some]

theorem located_otherPositions (hnodup : (symbols free).Nodup) (h : Located (symbols free) ps is) :
    Located (symbols free) (otherPositions free.length ps) (symbols (without free is)) := by
  rw [← freeAt_otherPositions hnodup h]
  exact located_freeAt fun p hp => (mem_otherPositions.1 hp).1

theorem freeWithout_eq (hnodup : (symbols free).Nodup) (hp : (symbols free)[p]? = some i) :
    freeWithout free p = without free [i] := by
  rw [getElem?_symbols, Option.map_eq_some_iff] at hp
  obtain ⟨b, hb, rfl⟩ := hp
  obtain ⟨hlt, hb⟩ := List.getElem?_eq_some_iff.1 hb
  have hsplit : free = free.take p ++ b :: free.drop (p + 1) := by
    rw [← hb, List.getElem_cons_drop, List.take_append_drop]
  have hother : ∀ c ∈ freeWithout free p, c.index ≠ b.index := by
    rw [hsplit, symbols_append, List.nodup_append] at hnodup
    obtain ⟨-, hback, hcross⟩ := hnodup
    intro c hc
    rcases List.mem_append.1 hc with hc | hc
    · exact hcross _ (index_mem_symbols hc) _ (index_mem_symbols (by simp))
    · exact fun heq => (List.nodup_cons.1 hback).1 (heq ▸ index_mem_symbols hc)
  have hself : without (freeWithout free p) [b.index] = freeWithout free p :=
    List.filter_eq_self.2 fun c hc => by simpa using hother c hc
  nth_rw 2 [hsplit]
  rw [← hself, freeWithout, without, without, List.filter_append, List.filter_append,
    List.filter_cons_of_neg (by simp)]

theorem length_freeWithout (hp : (symbols free)[p]? = some i) :
    (freeWithout free p).length = free.length - 1 := by
  have hlt := (List.getElem?_eq_some_iff.1 hp).1
  rw [length_symbols] at hlt
  simp only [freeWithout, List.length_append, List.length_take, List.length_drop]
  omega

theorem length_without_singleton (hnodup : (symbols free).Nodup) (hp : (symbols free)[p]? = some i) :
    (without free [i]).length = free.length - 1 := by
  rw [← freeWithout_eq hnodup hp, length_freeWithout hp]

/-- The positions next to one of them. -/
theorem filter_ne_eq_otherPositions (n p : Nat) :
    (List.range n).filter (· != p) = otherPositions n [p] := by
  rw [otherPositions]
  exact List.filter_congr fun q _ => by by_cases h : q = p <;> simp [h]

end Positions

end TensorCalculus
