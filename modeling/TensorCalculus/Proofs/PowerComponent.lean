import TensorCalculus.Proofs.Embedding
import TensorCalculus.Proofs.OnSpace
import TensorCalculus.Proofs.Signature
import TensorCalculus.Tensor.Value

/-!
# The component of a power at a tuple

The component of a power at a tuple is a stored one with a sign, `PowerKind.valueAt`, both where it is looked up
directly (`PowerKind.component_eq_valueAt`) and where the power is embedded in the tensor power of its factor
(`Tensor.Inhabits.embedded`). It is symmetric or alternating in the tuple
(`Tensor.powerComponent_eq_embedded`).
-/

namespace TensorCalculus

namespace PowerKind
variable {α : Type} [Scalar α] {kind : PowerKind} {degree dim d : Nat} {t : List Nat}

/-- The component at a tuple, for the stored components `x`. -/
def valueAt (kind : PowerKind) (x : Nat → α) (t : List Nat) : α :=
  let (sign, sorted) := kind.canonicalize t
  if sign = 0 then 0
  else if sign = 1 then x (kind.codeRank sorted.reverse) else -x (kind.codeRank sorted.reverse)

theorem sign_of_ne_zero (h : (kind.canonicalize t).1 ≠ 0) :
    (kind.canonicalize t).1 = 1 ∨ (kind.canonicalize t).1 = -1 := by
  have hbelow : ∀ a ∈ t, a < t.sum + 1 := fun a ha => Nat.lt_succ_of_le (List.le_sum_of_mem ha)
  exact sign_of_perm (kind.isCanonical_canonicalize t hbelow h) (kind.canonicalize_perm t).symm

theorem component_refuse {read : Nat → Checked α} (h : t.length ≠ degree ∨ ∃ a ∈ t, dim ≤ a) :
    kind.component degree dim read t = Outcome.refuse (.powerTuple t degree dim) := by
  have hcheck : (decide (t.length ≠ degree) || t.any fun a => decide (dim ≤ a)) = true := by
    simpa using h
  unfold component
  rw [if_pos hcheck]
  rfl

theorem component_eq_valueAt {read : Nat → Checked α} {x : Nat → α} (hdegree : degree < Count.limit)
    (hd : kind.dimension dim degree = .ok d) (hread : ∀ r < d, read r = .ok (x r))
    (hlength : t.length = degree) (hbelow : ∀ a ∈ t, a < dim) :
    kind.component degree dim read t = .ok (kind.valueAt x t) := by
  have hcheck : ¬ (decide (t.length ≠ degree) || t.any fun a => decide (dim ≤ a)) = true := by
    simpa [hlength] using hbelow
  unfold component valueAt
  rw [if_neg hcheck]
  dsimp only
  by_cases hsign : (kind.canonicalize t).1 = 0
  · rw [if_pos hsign, if_pos hsign]
    rfl
  · have hcanonical := hlength ▸ kind.isCanonical_canonicalize t hbelow hsign
    obtain ⟨hrank, hlt⟩ := rank_of_isCanonical hdegree hd hcanonical
    rw [if_neg hsign, if_neg hsign, hrank]
    show (do
      let x ← liftM (read (kind.codeRank (kind.canonicalize t).2.reverse))
      return if (kind.canonicalize t).1 = 1 then x else -x : Outcome TensorError α) = _
    rw [hread _ hlt]
    rfl

theorem valueAt_permuted_symmetric (x : Nat → α) (σ : Equiv.Perm (Fin t.length)) :
    symmetric.valueAt x (Power.permuted t σ) = symmetric.valueAt x t := by
  have h : symmetric.canonicalize (Power.permuted t σ) = symmetric.canonicalize t :=
    Prod.ext rfl (canonicalize_snd_permuted _ t σ)
  rw [valueAt, h, valueAt]

theorem valueAt_of_not_nodup (x : Nat → α) (h : ¬ t.Nodup) : exterior.valueAt x t = 0 :=
  if_pos ((sign_eq_zero_iff t).2 h)

theorem valueAt_permuted_even (x : Nat → α) {σ : Equiv.Perm (Fin t.length)} (hσ : σ.sign = 1) :
    exterior.valueAt x (Power.permuted t σ) = exterior.valueAt x t := by
  have hsign := sign_permuted t σ
  rw [hσ, Units.val_one, Int.one_mul] at hsign
  have h : exterior.canonicalize (Power.permuted t σ) = exterior.canonicalize t :=
    Prod.ext hsign (canonicalize_snd_permuted _ t σ)
  rw [valueAt, h, valueAt]

/-- One of the two is the stored component, and the other is its negative. -/
theorem valueAt_permuted_odd (x : Nat → α) (h : t.Nodup) {σ : Equiv.Perm (Fin t.length)} (hσ : σ.sign = -1) :
    exterior.valueAt x (Power.permuted t σ) = -exterior.valueAt x t ∨
      exterior.valueAt x t = -exterior.valueAt x (Power.permuted t σ) := by
  have hsign := sign_permuted t σ
  rw [hσ, Units.val_neg, Units.val_one, Int.neg_one_mul] at hsign
  unfold valueAt
  dsimp only
  rw [hsign, canonicalize_snd_permuted]
  rcases sign_of_ne_zero (mt (sign_eq_zero_iff t).1 (not_not.2 h)) with hone | hone
  · left
    rw [hone]
    rfl
  · right
    rw [hone]
    rfl

end PowerKind

/-- The natural embedding of an expression whose one index is over a power. -/
theorem Expr.Evaluable.component_embed {α : Type} [Scalar α] {m : Memory α} {inner : Expr α} {plan : EmbedPlan}
    {b : BoundIndex} {is : List Index} {kind : PowerKind} {base : Concept} {n : Nat} {x : Nat → α}
    {t : List Nat} (he : Expr.Evaluable m inner) (hfree : inner.free = [b])
    (h : plan.EmbedsPower inner.free b is .natural kind base n)
    (hx : ∀ env, env b.index < b.dim → inner.componentAt m env = .ok (x (env b.index)))
    (hone : ∀ r < b.dim, x r * Scalar.ofDouble (.ofInt 1) = x r)
    (hneg : ∀ r < b.dim, x r * Scalar.ofDouble (.ofInt (-1)) = -x r)
    (hlength : t.length = is.length) (hbelow : ∀ a ∈ t, a < n) :
    (Expr.embed inner plan).component m t = .ok (kind.valueAt x t) := by
  let env := Assignment.extend (fun _ => 0) is t
  have hmap : is.map env = t := Assignment.map_extend h.nodup hlength.symm
  have hnew : plan.free = is.map fun j => ⟨j, base, n⟩ := by
    rw [h.free_base, hfree]
    simp [without]
  have henv : InRange plan.free env := by
    intro a ha
    rw [hnew] at ha
    obtain ⟨j, hj, rfl⟩ := List.mem_map.1 ha
    exact hbelow _ (hmap ▸ List.mem_map_of_mem hj)
  have hcomponent : (Expr.embed inner plan).component m t = (Expr.embed inner plan).componentAt m env := by
    have hsymbols : symbols (Expr.embed inner plan).free = is := by
      show symbols plan.free = is
      rw [hnew, symbols_map, List.map_id']
    rw [Expr.componentAt, hsymbols, hmap]
  rw [hcomponent]
  unfold PowerKind.valueAt
  dsimp only
  rcases componentAt_embed_inRange (m := m) h.toEmbeds he.toWellFormed he.sized henv with
    ⟨hzero, heq⟩ | ⟨r, hne, hr, -, heq⟩
  · rw [hmap, h.kind_eq] at hzero
    rw [heq, if_pos hzero]
  · rw [hmap, h.kind_eq] at hne hr heq
    have hcanonical := hlength ▸ kind.isCanonical_canonicalize t hbelow hne
    obtain ⟨hrank, hlt⟩ := PowerKind.rank_of_isCanonical (Nat.lt_of_le_of_lt h.length_into_le (by decide))
      h.dimension hcanonical
    obtain rfl := Except.ok.inj (hr.symm.trans hrank)
    have hindex := Assignment.extend_cons_self env [] [] b.index
      (kind.codeRank (kind.canonicalize t).2.reverse)
    rw [heq, hx _ (hindex.symm ▸ hlt), hindex, ok_bind, if_neg hne]
    rcases PowerKind.sign_of_ne_zero hne with hsign | hsign
    · rw [hsign, if_pos rfl]
      exact congrArg Except.ok (hone _ hlt)
    · rw [hsign, if_neg (by decide)]
      exact congrArg Except.ok (hneg _ hlt)

namespace Tensor
variable {α : Type} {m : Memory α} {p : Tensor α} {kind : PowerKind} {K n : Nat} {F : Space}

theorem Inhabits.power_dimension (hp : p.Inhabits m (.power kind K F)) (hn : F.dimension = .ok n) :
    kind.dimension n K = .ok p.storage.count := by
  have h := hp.dimension_eq
  rwa [Space.dimension, hn, ok_bind] at h

variable [Scalar α]

/-- The natural embedding of an array on a power gives the stored components with their signs. -/
theorem Inhabits.embedded (hp : p.Inhabits m (.power kind K F)) (hn : F.dimension = .ok n)
    (hrank : K ≤ maxRank) {x : Nat → α} (hx : ∀ r < p.storage.count, m.read p.storage r = .ok (x r))
    (hone : ∀ r < p.storage.count, x r * Scalar.ofDouble (.ofInt 1) = x r)
    (hneg : ∀ r < p.storage.count, x r * Scalar.ofDouble (.ofInt (-1)) = -x r)
    (i : Index) {is : List Index} (his : is.Nodup) (hK : is.length = K) :
    ∃ e f, p.indexed [i] = .ok e ∧ e.embedInto i is .natural = .ok f ∧
      ∀ t, t.length = K → (∀ a ∈ t, a < n) → f.component m t = .ok (kind.valueAt x t) := by
  obtain ⟨c, e, hc, he, hfree⟩ := hp.written_single nofun hp.dimension_eq i
  rw [Space.concept] at hc
  obtain ⟨base, hbase, hpower⟩ := bind_eq_ok.1 hc
  let b : BoundIndex := ⟨i, c, p.storage.count⟩
  have hb : b ∈ e.free := hfree ▸ List.mem_singleton_self b
  obtain ⟨f, hf⟩ : ∃ f, e.embedInto b.index is .natural = .ok f := by
    refine Expr.embedInto_ok .natural he.evaluable.nodup hb (hK ▸ hpower) his ?_ ?_
    · intro j _
      simp [hfree, he.used_eq, without, symbols, b]
    · rw [Expr.rank, hfree, hK]
      simpa using hrank
  obtain ⟨-, plan, n', rfl, hplan⟩ := Expr.embedInto_power he.evaluable.toSound hb hpower hf
  obtain rfl := Except.ok.inj ((Space.dimension_of_concept hbase hn).symm.trans hplan.base_dimension)
  refine ⟨e, _, he.indexed_eq, hf, fun t hlength hbelow => ?_⟩
  refine he.evaluable.component_embed hfree hplan (fun env henv => ?_) hone hneg (hlength.trans hK.symm) hbelow
  have hrange : InRange e.free env := by
    rw [hfree]
    exact List.forall_mem_singleton.2 henv
  rw [he.read_eq env hrange, ← hx _ henv]
  simp [Box.position]

/-- A tuple of the wrong length or with an entry out of range is refused. At any other one the component is that
of the natural embedding, and depends on stored components only. It does not change with the order of a
symmetric tuple. That of an exterior one takes the sign of a permutation, and is zero where an entry
repeats. -/
theorem powerComponent_eq_embedded (hp : p.Inhabits m (.power kind K F)) (hn : F.dimension = .ok n)
    (hK : K < Count.limit) (tuple : List Nat) :
    (kind.component K n (m.read p.storage) tuple = Outcome.refuse (.powerTuple tuple K n) ↔
      tuple.length ≠ K ∨ ∃ a ∈ tuple, n ≤ a) ∧
    (∀ v : Value α, (∀ r < p.storage.count, v.read r = m.read p.storage r) →
      v.powerComponent kind K F tuple = kind.component K n (m.read p.storage) tuple) ∧
    (tuple.length = K → (∀ a ∈ tuple, a < n) → ∃ y : α,
      (∀ read : Nat → Checked α, (∀ r < p.storage.count, read r = m.read p.storage r) →
        kind.component K n read tuple = .ok y) ∧
      (K ≤ maxRank →
        (∀ r < p.storage.count, ∀ x, m.read p.storage r = .ok x →
          x * Scalar.ofDouble (.ofInt 1) = x ∧ x * Scalar.ofDouble (.ofInt (-1)) = -x) →
        ∀ (i : Index) (is : List Index), is.Nodup → is.length = K →
          ∃ e f, p.indexed [i] = .ok e ∧ e.embedInto i is .natural = .ok f ∧ f.component m tuple = .ok y) ∧
      ∀ σ : Equiv.Perm (Fin tuple.length), ∃ y' : α,
        kind.component K n (m.read p.storage) (Power.permuted tuple σ) = .ok y' ∧
        (kind = .symmetric → y' = y) ∧
        (kind = .exterior → (¬ tuple.Nodup → y = 0 ∧ y' = 0) ∧ (tuple.Nodup → σ.sign = 1 → y' = y) ∧
          (tuple.Nodup → σ.sign = -1 → (y' = -y ∨ y = -y') ∧ (- -y' = y' → y' = -y)))) := by
  have hd := hp.power_dimension hn
  have hreads : ∀ r < p.storage.count, ∃ x, m.read p.storage r = .ok x := fun r hr =>
    Memory.read_ok hp.valid hr
  choose! x hx using hreads
  have hok : ∀ t, t.length = K → (∀ a ∈ t, a < n) → ∀ read : Nat → Checked α,
      (∀ r < p.storage.count, read r = m.read p.storage r) →
      kind.component K n read t = .ok (kind.valueAt x t) := by
    intro t hlength hbelow read hread
    exact PowerKind.component_eq_valueAt hK hd (fun r hr => (hread r hr).trans (hx r hr)) hlength hbelow
  refine ⟨⟨fun h => ?_, PowerKind.component_refuse⟩, fun v hv => ?_, fun hlength hbelow => ?_⟩
  · by_contra hgood
    push Not at hgood
    rw [hok tuple hgood.1 hgood.2 _ fun _ _ => rfl] at h
    cases h
  · have hvalue : v.powerComponent kind K F tuple = kind.component K n v.read tuple := by
      rw [Value.powerComponent, hn]
      rfl
    rw [hvalue]
    by_cases hbad : tuple.length ≠ K ∨ ∃ a ∈ tuple, n ≤ a
    · rw [PowerKind.component_refuse hbad, PowerKind.component_refuse hbad]
    · push Not at hbad
      rw [hok tuple hbad.1 hbad.2 _ hv, hok tuple hbad.1 hbad.2 _ fun _ _ => rfl]
  · refine ⟨_, hok tuple hlength hbelow, fun hrank hlaws i is his his' => ?_, fun σ => ?_⟩
    · obtain ⟨e, f, he, hf, hvalue⟩ := hp.embedded hn hrank hx (fun r hr => (hlaws r hr _ (hx r hr)).1)
        (fun r hr => (hlaws r hr _ (hx r hr)).2) i his his'
      exact ⟨e, f, he, hf, hvalue tuple hlength hbelow⟩
    · have hperm := Power.permuted_perm tuple σ
      refine ⟨_, hok _ (hperm.length_eq.trans hlength) (fun a ha => hbelow a (hperm.mem_iff.1 ha)) _
        fun _ _ => rfl, ?_, ?_⟩
      · rintro rfl
        exact PowerKind.valueAt_permuted_symmetric x σ
      · rintro rfl
        refine ⟨fun h => ⟨PowerKind.valueAt_of_not_nodup x h, ?_⟩, fun _ => PowerKind.valueAt_permuted_even x,
          fun h hσ => ?_⟩
        · exact PowerKind.valueAt_of_not_nodup x (mt hperm.nodup_iff.1 h)
        · have hodd := PowerKind.valueAt_permuted_odd x h hσ
          refine ⟨hodd, fun hneg => ?_⟩
          rcases hodd with hodd | hodd
          · exact hodd
          · rw [hodd, hneg]

/-- A 3-form on four dimensions, at a tuple and at the tuple with two entries exchanged. -/
theorem powerComponent_eq_embedded_form : ∃ (F : Space) (m : Memory (Binary .double))
    (p : Tensor (Binary .double)) (i : Index) (is : List Index) (e f : Expr (Binary .double))
    (y : Binary .double), p.Inhabits m (.power .exterior 3 F) ∧ F.dimension = .ok 4 ∧ 3 < Count.limit ∧
    p.indexed [i] = .ok e ∧ e.embedInto i is .natural = .ok f ∧ f.component m [3, 0, 2] = .ok y ∧
    PowerKind.exterior.component 3 4 (m.read p.storage) [3, 0, 2] = .ok y ∧
    PowerKind.exterior.component 3 4 (m.read p.storage) [0, 3, 2] = .ok (-y) := by
  let F : Space := .based (.named "Real") 4 (.named "Spacetime") false (.named "Standard")
  let m : Memory (Binary .double) := ⟨8, ((List.range 4).map fun k => .ofInt (k + 1)).toArray⟩
  let p : {p : Tensor (Binary .double) // Tensor.on (.power .exterior 3 F) (.readOnly ⟨0, 4, true⟩) = .ok p} :=
    ⟨_, rfl⟩
  have hp : p.1.Inhabits m (.power .exterior 3 F) :=
    ⟨p.2, rfl, by simp [Storage.Valid, p, m], show 4 < Count.limit by decide⟩
  obtain ⟨-, -, hvalue⟩ := powerComponent_eq_embedded hp (n := 4) rfl (by decide) [3, 0, 2]
  obtain ⟨y, hy, hembedded, hpermuted⟩ := hvalue rfl (by decide)
  have hlaws : ∀ r < 4, ∀ x, m.read p.1.storage r = .ok x →
      x * Scalar.ofDouble (.ofInt 1) = x ∧ x * Scalar.ofDouble (.ofInt (-1)) = -x := by
    intro r hr x hx
    have hcases : r = 0 ∨ r = 1 ∨ r = 2 ∨ r = 3 := by omega
    rcases hcases with rfl | rfl | rfl | rfl <;> cases hx <;> decide
  obtain ⟨e, f, he, hf, hcomponent⟩ := hembedded (by decide) hlaws (.ofChar 'p')
    [.ofChar 'i', .ofChar 'j', .ofChar 'k'] (by decide) rfl
  obtain ⟨y', hy', -, hexterior⟩ := hpermuted (Equiv.swap 0 1)
  have hodd := ((hexterior rfl).2.2 (by decide) (by decide)).2 (by cases hy'; decide)
  exact ⟨F, m, p.1, _, _, e, f, y, hp, rfl, by decide, he, hf, hcomponent, hy _ fun _ _ => rfl, hodd ▸ hy'⟩

end Tensor

end TensorCalculus
