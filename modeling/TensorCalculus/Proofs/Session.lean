import TensorCalculus.Expr.Session
import TensorCalculus.Proofs.Counter
import TensorCalculus.Proofs.FreeIndex

/-!
# Computations in a session

`Action.bind_eq_ok` takes a computation in a session apart into its steps. Evaluating an expression
works out its components at all multi-indices in row-major order (`Expr.components_eq`). It puts them into
new cells and adds to the record of what was done, and changes nothing else (`Expr.eval_eq_ok`).
-/

namespace TensorCalculus

namespace Action
variable {α β γ : Type} {s s' : Session α}

theorem bind_eq_ok {x : Action α β} {f : β → Action α γ} {c : γ} :
    (x >>= f) s = .ok c s' ↔ ∃ b s₁, x s = .ok b s₁ ∧ f b s₁ = .ok c s' := by
  show EStateM.bind x f s = _ ↔ _
  unfold EStateM.bind
  cases hx : x s with
  | ok b s₁ => simp
  | error e s₁ => simp

theorem ofOutcome_eq_ok {x : Outcome ExprError β} {b : β} :
    (ofOutcome x : Action α β) s = .ok b s' ↔ x = .ok b ∧ s = s' := by
  cases x <;> simp [ofOutcome]

theorem record_eq_ok {event : Event} {u : Unit} :
    (record event : Action α Unit) s = .ok u s' ↔ { s with log := s.log ++ [event] } = s' :=
  ⟨fun h => by cases h; rfl, fun h => by cases h; rfl⟩

end Action

namespace Expr
variable {α : Type} [Scalar α] {e e' : Expr α} {s s' : Session α}

/-- A loop that puts one component after the other behind those it has. -/
theorem foldlM_putComponent (f : Nat → Checked α) (xs : List α) (n : Nat) :
    (List.range' xs.length n).foldlM (fun acc k => do putComponent acc k (← f k))
        (xs ++ List.replicate n 0).toArray =
      (do return (xs ++ (← (List.range' xs.length n).mapM f)).toArray) := by
  induction n generalizing xs with
  | zero => simp
  | succ n ih =>
    rw [List.range'_succ, List.foldlM_cons, List.mapM_cons]
    cases hx : f xs.length with
    | error e => rfl
    | ok x =>
      have hput : putComponent (xs ++ List.replicate (n + 1) 0).toArray xs.length x =
          .ok (xs ++ x :: List.replicate n 0).toArray := by
        rw [putComponent, if_pos (by simp)]
        simp [List.replicate_succ]
      have hrest := ih (xs ++ [x])
      simp only [List.length_append, List.length_singleton, List.append_assoc, List.singleton_append] at hrest
      simp only [ok_bind, hput, hrest, bind_assoc, pure_bind]

/-- The components in row-major order. -/
theorem components_eq {count : Nat} (hcount : Count.product (e.free.map BoundIndex.dim) = .ok count)
    (m : Memory α) : e.components m count =
      (do return (← (Box.multiIndices (e.free.map BoundIndex.dim)).mapM (e.component m)).toArray) := by
  obtain ⟨hsize, hlimit⟩ := Count.product_eq_ok hcount
  have hflat : ∀ k ∈ List.range count, Box.flatten (Box.multiIndex (e.free.map BoundIndex.dim) k)
      (e.free.map BoundIndex.dim) = .ok k := by
    intro k hk
    have hk : k < Box.size (e.free.map BoundIndex.dim) := hsize ▸ List.mem_range.1 hk
    have hbox := Box.multiIndex_inBox (Box.pos_of_size_pos (Nat.zero_lt_of_lt hk)) k
    rw [Box.flatten_eq hbox (by omega), Box.position_multiIndex hk]
  have hloop := foldlM_putComponent (fun k => e.component m (Box.multiIndex (e.free.map BoundIndex.dim) k))
    [] count
  simp only [List.length_nil, ← List.range_eq_range', List.nil_append, List.toArray_replicate] at hloop
  rw [components, Odometer.foldM_first, Box.multiIndices_eq, hsize, List.foldlM_map, List.mapM_map]
  refine Eq.trans (foldlM_congr _ fun k hk acc => ?_) hloop
  show (do
    let x ← e.component m (Box.multiIndex (e.free.map BoundIndex.dim) k)
    putComponent acc (← Box.flatten (Box.multiIndex _ k) (e.free.map BoundIndex.dim)) x) = _
  rw [hflat k hk]
  rfl

theorem components_eq_ok {m : Memory α} {count : Nat} {xs : Array α}
    (hcount : Count.product (e.free.map BoundIndex.dim) = .ok count) : e.components m count = .ok xs ↔
      (Box.multiIndices (e.free.map BoundIndex.dim)).mapM (e.component m) = .ok xs.toList := by
  rw [components_eq hcount]
  cases (Box.multiIndices (e.free.map BoundIndex.dim)).mapM (e.component m) with
  | error f => simp
  | ok ys =>
    simp only [ok_bind, pure_eq_ok, Except.ok.injEq]
    exact ⟨fun h => by rw [← h], fun h => by rw [h]⟩

theorem size_of_components {m : Memory α} {count : Nat} {xs : Array α}
    (hcount : Count.product (e.free.map BoundIndex.dim) = .ok count) (h : e.components m count = .ok xs) :
    xs.size = Box.size (e.free.map BoundIndex.dim) := by
  rw [← Box.length_multiIndices, (mapM_eq_ok.1 ((components_eq_ok hcount).1 h)).length_eq,
    Array.length_toList]

/-- The components that were worked out are those of the memory of that time. -/
theorem component_evaluated {m m' : Memory α} {count : Nat} {array : OwnedArray α} {values : List Nat}
    (hcount : Count.product (e.free.map BoundIndex.dim) = .ok count)
    (hxs : e.components m count = .ok array.components)
    (hvalues : Box.InBox values (e.free.map BoundIndex.dim)) :
    (Expr.evaluated e.free array).component m' values = e.component m values := by
  obtain ⟨hsize, hlimit⟩ := Count.product_eq_ok hcount
  obtain ⟨x, hx, hcomponent⟩ := forall₂_getElem? (mapM_eq_ok.1 ((components_eq_ok hcount).1 hxs))
    (Box.getElem?_multiIndices hvalues)
  rw [Array.getElem?_toList] at hx
  rw [component, Box.flatten_eq hvalues (by omega), ok_bind, hx, hcomponent]

theorem eval_eq_ok : e.eval s = .ok e' s' ↔ e.free.length ≤ maxRank ∧
    ∃ count xs, Count.product (e.free.map BoundIndex.dim) = .ok count ∧
      e.components s.memory count = .ok xs ∧ e' = .evaluated e.free (s.memory.own xs).2 ∧
      s' = ⟨(s.memory.own xs).1, s.log ++ [.evaluation e.freeSymbols count]⟩ := by
  unfold eval
  constructor
  · intro h
    obtain ⟨⟨⟩, s₁, h₁, h⟩ := Action.bind_eq_ok.1 h
    obtain ⟨hrank, rfl⟩ := Action.ofOutcome_eq_ok.1 h₁
    obtain ⟨count, s₂, h₂, h⟩ := Action.bind_eq_ok.1 h
    obtain ⟨hcount, rfl⟩ := Action.ofOutcome_eq_ok.1 h₂
    obtain ⟨⟨⟩, s₃, h₃, h⟩ := Action.bind_eq_ok.1 h
    obtain rfl := Action.record_eq_ok.1 h₃
    obtain ⟨s₄, s₅, h₄, h⟩ := Action.bind_eq_ok.1 h
    cases h₄
    obtain ⟨xs, s₆, h₆, h⟩ := Action.bind_eq_ok.1 h
    obtain ⟨hxs, rfl⟩ := Action.ofOutcome_eq_ok.1 h₆
    cases h
    have hrank := checkRank_eq_ok.1 (mapError_eq_ok.1 (liftError_eq_ok.1 hrank))
    rw [List.length_map] at hrank
    exact ⟨hrank, count, xs, liftFault_eq_ok.1 hcount, liftFault_eq_ok.1 hxs, rfl, rfl⟩
  · rintro ⟨hrank, count, xs, hcount, hxs, rfl, rfl⟩
    have hrank : checkRank (e.free.map BoundIndex.dim).length = .ok () := by
      rwa [List.length_map, checkRank_eq_ok]
    refine Action.bind_eq_ok.2 ⟨(), s, Action.ofOutcome_eq_ok.2
      ⟨liftError_eq_ok.2 (mapError_eq_ok.2 hrank), rfl⟩, ?_⟩
    refine Action.bind_eq_ok.2 ⟨count, s, Action.ofOutcome_eq_ok.2 ⟨liftFault_eq_ok.2 hcount, rfl⟩, ?_⟩
    refine Action.bind_eq_ok.2 ⟨(), _, Action.record_eq_ok.2 rfl, ?_⟩
    refine Action.bind_eq_ok.2 ⟨_, _, rfl, ?_⟩
    exact Action.bind_eq_ok.2 ⟨xs, _, Action.ofOutcome_eq_ok.2 ⟨liftFault_eq_ok.2 hxs, rfl⟩, rfl⟩

/-- Without a count no component is worked out. -/
theorem eval_of_uncounted {f : Fault} (hrank : e.free.length ≤ maxRank)
    (h : Count.product (e.free.map BoundIndex.dim) = .error f) : e.eval s = .error (.fault f) s := by
  have hrank : checkRank (e.free.map BoundIndex.dim).length = .ok () := by
    rwa [List.length_map, checkRank_eq_ok]
  unfold eval
  dsimp only
  rw [hrank, h]
  rfl

end Expr

end TensorCalculus
