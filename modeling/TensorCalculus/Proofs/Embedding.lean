import TensorCalculus.Proofs.ExactScalar
import TensorCalculus.Proofs.Orbit
import TensorCalculus.Proofs.Safety

/-!
# Powers inside the tensors

An expression over a power can be embedded into the tensors over its base, and tensors can be taken back
to the power. Over exact scalars the two are adjoint (`Expr.sum_embed_mul`). One after the other is a
multiplication by the size of the orbit, and nothing at all if the coefficients are those of an
orthonormal basis (`Expr.componentAt_coembed_embed`).
-/

namespace TensorCalculus

open TensorCalculus.Expr (freeAt)

/-! ### Coefficients -/

section Coefficients
variable {α : Type} [Scalar α]

/-- The sign with which a tuple enters, as a scalar. -/
def PowerKind.sign (kind : PowerKind) (t : List Nat) : α := if (kind.canonicalize t).1 = 1 then 1 else -1

/-- The coefficient of the tuples with positive sign in an orbit. -/
def Embedding.scale (embedding : Embedding) (orbit : Nat) : α :=
  Scalar.ofDouble (embedding.coefficient 1 orbit)

variable (α) in
/-- The two coefficients of an orbit differ by the sign only. -/
def Embedding.Signed (embedding : Embedding) (orbit : Nat) : Prop :=
  (Scalar.ofDouble (embedding.coefficient (-1) orbit) : α) = -embedding.scale orbit

variable [Scalar.IsCommRing α]

attribute [local instance] Scalar.commRing

theorem PowerKind.sign_mul_self (kind : PowerKind) (t : List Nat) : (kind.sign t * kind.sign t : α) = 1 := by
  unfold PowerKind.sign
  split <;> ring

theorem Embedding.Signed.coefficient_eq {embedding : Embedding} {orbit : Nat} (h : embedding.Signed α orbit)
    {kind : PowerKind} {t : List Nat} (ht : (kind.canonicalize t).1 = 1 ∨ (kind.canonicalize t).1 = -1) :
    (Scalar.ofDouble (embedding.coefficient (kind.canonicalize t).1 orbit) : α) =
      kind.sign t * embedding.scale orbit := by
  unfold PowerKind.sign
  rcases ht with ht | ht
  · rw [ht, if_pos rfl, one_mul]
    rfl
  · rw [ht, if_neg (by decide), h, neg_one_mul]

end Coefficients

/-! ### Indices over a power -/

/-- The plan embeds the index `b` over a power as the indices `into` over the base of the power. -/
structure EmbedPlan.EmbedsPower (plan : EmbedPlan) (inner : List BoundIndex) (b : BoundIndex)
    (into : List Index) (embedding : Embedding) (kind : PowerKind) (base : Concept) (n : Nat) : Prop
    extends plan.Embeds inner b.index into embedding where
  kind_eq : plan.kind = kind
  base_dimension : base.dimension = .ok n
  dimension : kind.dimension n into.length = .ok b.dim
  free_base : plan.free = without inner [b.index] ++ into.map fun i => ⟨i, base, n⟩

section EmbedsPower
variable {plan : EmbedPlan} {inner : List BoundIndex} {b : BoundIndex} {into : List Index}
  {embedding : Embedding} {kind : PowerKind} {base : Concept} {n : Nat}

theorem EmbedPlan.EmbedsPower.factor_eq (h : plan.EmbedsPower inner b into embedding kind base n) :
    ∀ c ∈ plan.free, c.index ∈ into → c.factor = base := by
  intro c hc hmem
  rw [h.free_base] at hc
  rcases List.mem_append.1 hc with hc | hc
  · exact absurd (index_mem_symbols hc) (h.fresh _ hmem)
  · obtain ⟨i, -, rfl⟩ := List.mem_map.1 hc
    rfl

/-- Next to the new indices there are those next to the old one. -/
theorem EmbedPlan.EmbedsPower.without_free (h : plan.EmbedsPower inner b into embedding kind base n) :
    without plan.free into = without inner [b.index] := by
  have hsymbols : symbols (into.map fun i => (⟨i, base, n⟩ : BoundIndex)) = into := by
    rw [symbols_map, List.map_id']
  rw [h.free_base]
  nth_rw 2 [← hsymbols]
  exact without_append_symbols (hsymbols.symm ▸ h.fresh)

end EmbedsPower

/-- The plan merges indices over the space `base` to an index over its power. -/
structure CoembedPlan.MergesBase (plan : CoembedPlan) (inner : List BoundIndex) (indices : List Index)
    (into : Index) (kind : PowerKind) (embedding : Embedding) (base : Concept) : Prop
    extends plan.Merges inner indices into kind embedding where
  free_power : ∃ power dim, Concept.basedPower kind base indices.length = .ok power ∧
    power.dimension = .ok dim ∧ plan.free = without inner indices ++ [⟨into, power, dim⟩]

namespace Expr
variable {α : Type} {s t e : Expr α}

theorem embedInto_power (hs : s.Sound) {b : BoundIndex} (hb : b ∈ s.free) {kind : PowerKind}
    {base : Concept} {degree : Nat} (hpower : Concept.basedPower kind base degree = .ok b.factor)
    {into : List Index} {embedding : Embedding} (h : s.embedInto b.index into embedding = .ok e) :
    into.length = degree ∧
      ∃ plan n, e = .embed s plan ∧ plan.EmbedsPower s.free b into embedding kind base n := by
  obtain ⟨hunique, hshape, hdegree, hfactor, n, d, hn, hd, hdim⟩ := Concept.queries_basedPower hpower
  obtain ⟨plan, rfl, hplan⟩ := embedInto_eq_ok h hs.nodup
  obtain ⟨b', hb', hindex, power, base', n', hunique', hshape', hdegree', hfactor', hn', hfree⟩ := hplan.free_eq
  obtain rfl : b = b' := List.inj_on_of_nodup_map hs.nodup hb hb' hindex.symm
  obtain rfl := Except.ok.inj (hunique.symm.trans hunique')
  obtain rfl := Except.ok.inj (hfactor.symm.trans hfactor')
  obtain rfl := Except.ok.inj (hn.symm.trans hn')
  obtain rfl := Except.ok.inj (hdegree.symm.trans hdegree')
  obtain rfl := Except.ok.inj (hdim.symm.trans (hs.dimension b hb))
  exact ⟨rfl, plan, n, rfl, hplan, Option.some.inj (hshape'.symm.trans hshape), hn, hd, hfree⟩

theorem coembedInto_base (ht : t.Sound) {indices : List Index} {into : Index} {kind : PowerKind}
    {embedding : Embedding} {base : Concept} (hbase : ∀ b ∈ t.free, b.index ∈ indices → b.factor = base)
    (h : t.coembedInto indices into kind embedding = .ok e) :
    ∃ plan, e = .coembed t plan ∧ plan.MergesBase t.free indices into kind embedding base := by
  obtain ⟨plan, rfl, hplan⟩ := coembedInto_eq_ok h ht.nodup
  obtain ⟨base', power, dim, hbase', hpower, hdim, hfree⟩ := hplan.free_eq
  obtain ⟨i, is, rfl⟩ := List.exists_cons_of_ne_nil hplan.ne_nil
  have hi : i ∈ symbols (freeAt t.free plan.merged) := symbols_freeAt hplan.located ▸ List.mem_cons_self
  obtain ⟨b, hb, rfl⟩ := mem_symbols.1 hi
  obtain rfl : base = base' := (hbase b (mem_of_mem_freeAt hb) (by simp)).symm.trans (hbase' b hb)
  exact ⟨plan, rfl, hplan, power, dim, hpower, hdim, hfree⟩

end Expr

/-- An index over a power can be embedded as many new ones as the degree. -/
theorem Expr.embedInto_ok {α : Type} {e : Expr α} {b : BoundIndex} {into : List Index} {kind : PowerKind}
    (embedding : Embedding) {base : Concept} (hfree : (symbols e.free).Nodup) (hb : b ∈ e.free)
    (hpower : Concept.basedPower kind base into.length = .ok b.factor) (hnodup : into.Nodup)
    (hfresh : ∀ i ∈ into, i ∉ symbols (without e.free [b.index]) ∧ i ∉ e.used)
    (hrank : e.rank - 1 + into.length ≤ maxRank) :
    ∃ e', e.embedInto b.index into embedding = .ok e' := by
  obtain ⟨hunique, hshape, hdegree, hfactor, n, -, hn, -⟩ := Concept.queries_basedPower hpower
  obtain ⟨position, hposition⟩ := findFree_ok (index_mem_symbols hb)
  have hlocated := findFree_eq_ok hposition
  have hbound : e.free[position]? = some b := by
    rw [getElem?_symbols, Option.map_eq_some_iff] at hlocated
    obtain ⟨c, hc, hindex⟩ := hlocated
    rw [hc, List.inj_on_of_nodup_map hfree (List.mem_of_getElem? hc) hb hindex]
  unfold Expr.embedInto
  refine exists_bind_ok hposition ?_
  dsimp only
  rw [hbound]
  dsimp only
  rw [StructureClass.hasUnique, Criterion.hasUnique_iff.2 ⟨_, hunique⟩, if_neg (by decide)]
  refine exists_bind_ok (mapError_eq_ok.2 hunique) ?_
  rw [hshape]
  refine exists_bind_ok (mapError_eq_ok.2 hdegree) ?_
  rw [if_neg (not_not.2 rfl)]
  refine exists_bind_ok (checkDistinct_eq_ok.2 hnodup) ?_
  refine exists_bind_ok (forM_eq_ok.2 fun i hi => Expr.checkFresh_eq_ok.2 (hfresh i hi)) ?_
  refine exists_bind_ok (mapError_eq_ok.2 (checkRank_eq_ok.2 hrank)) ?_
  refine exists_bind_ok (mapError_eq_ok.2 hfactor) ?_
  exact exists_bind_ok (mapError_eq_ok.2 hn) ⟨_, rfl⟩

/-- Indices over one space can be merged. -/
theorem Expr.coembedInto_ok {α : Type} {e : Expr α} {indices : List Index} {into : Index} {kind : PowerKind}
    (embedding : Embedding) {base power : Concept} {dim : Nat} (hne : indices ≠ []) (hnodup : indices.Nodup)
    (hfree : ∀ i ∈ indices, i ∈ symbols e.free)
    (hbase : ∀ b ∈ e.free, b.index ∈ indices → b.factor = base)
    (hfresh : into ∉ symbols (without e.free indices)) (hused : into ∉ e.used)
    (hpower : Concept.basedPower kind base indices.length = .ok power) (hdim : power.dimension = .ok dim) :
    ∃ e', e.coembedInto indices into kind embedding = .ok e' := by
  obtain ⟨merged, hmerged⟩ := mapM_ok fun i hi => findFree_ok (hfree i hi)
  have hlocated := findAllFree_eq_ok hmerged
  have hfactor : ∀ b ∈ freeAt e.free merged, b.factor = base := by
    intro b hb
    refine hbase b (mem_of_mem_freeAt hb) ?_
    rw [← symbols_freeAt hlocated]
    exact index_mem_symbols hb
  obtain ⟨first, rest, hfirst⟩ : ∃ first rest, freeAt e.free merged = first :: rest := by
    refine List.exists_cons_of_ne_nil fun hnil => hne ?_
    rw [← symbols_freeAt hlocated, hnil]
    rfl
  rw [hfirst, List.forall_mem_cons] at hfactor
  have hfactors : Expr.checkFactors first.factor rest = .ok () := by
    refine forM_eq_ok.2 fun b hb => if_pos ?_
    rw [hfactor.1, hfactor.2 b hb]
  rw [← hfactor.1, ← hlocated.length_eq] at hpower
  unfold Expr.coembedInto
  dsimp only
  rw [if_neg (by simpa using hne)]
  refine exists_bind_ok (liftError_eq_ok.2 (checkDistinct_eq_ok.2 hnodup)) ?_
  refine exists_bind_ok (liftError_eq_ok.2 hmerged) ?_
  refine exists_bind_ok (liftError_eq_ok.2 (Expr.checkFresh_eq_ok.2 ⟨hfresh, hused⟩)) ?_
  rw [hfirst]
  refine exists_bind_ok (liftError_eq_ok.2 hfactors) ?_
  refine exists_bind_ok (mapError_eq_ok.2 hpower) ?_
  exact exists_bind_ok (mapError_eq_ok.2 (mapError_eq_ok.2 hdim)) ⟨_, rfl⟩

/-! ### Components -/

namespace Expr
variable {α : Type} [Scalar α] {m : Memory α} {env env' : Assignment} {inner e : Expr α}

section Embed
variable {plan : EmbedPlan} {b : BoundIndex} {into : List Index} {embedding : Embedding} {kind : PowerKind}
  {base : Concept} {n : Nat} {u : List Nat}

/-- Tuples with a repeated entry are left out of an exterior power. -/
theorem componentAt_embed_of_sign (h : plan.EmbedsPower inner.free b into embedding kind base n)
    (hinner : inner.WellFormed) (hlength : into.length = u.length) (hsign : (kind.canonicalize u).1 = 0) :
    (Expr.embed inner plan).componentAt m (env.extend into u) = .ok 0 := by
  rw [componentAt_embed m _ h.toEmbeds hinner, Assignment.map_extend h.nodup hlength, h.kind_eq]
  dsimp only
  rw [if_pos hsign]
  rfl

variable [Scalar.IsCommRing α]

/-- The component at a rearrangement of a canonical tuple is that of the power, with sign and scale. -/
theorem componentAt_embed_of_perm (h : plan.EmbedsPower inner.free b into embedding kind base n)
    (hinner : inner.WellFormed) {r : Nat} {t : List Nat}
    (hsigned : embedding.Signed α (Power.rearrangements t).length)
    (ht : kind.IsCanonical n into.length t) (hrank : kind.rank t = .ok r) (hperm : u.Perm t) :
    (Expr.embed inner plan).componentAt m (env.extend into u) = (do
      let x ← inner.componentAt m (env.extend [b.index] [r])
      return x * (kind.sign u * embedding.scale (Power.rearrangements t).length)) := by
  have hsign := PowerKind.sign_of_perm ht hperm
  have hlength : into.length = u.length := by rw [hperm.length_eq, ht.length]
  rw [componentAt_embed m _ h.toEmbeds hinner, Assignment.map_extend h.nodup hlength, h.kind_eq]
  dsimp only
  rw [if_neg (by rcases hsign with hsign | hsign <;> simp [hsign]),
    PowerKind.canonicalize_of_perm ht.sorted_le hperm, hrank, ok_bind, hsigned.coefficient_eq hsign,
    componentAt_extend (List.nodup_singleton _) rfl h.fresh]

end Embed

section Exact
variable [Scalar.IsCommRing α]

attribute [local instance] Scalar.commRing

/-- The component at an index of the power is the signed sum over an orbit, scaled. -/
theorem componentAt_coembed_of_ok {plan : CoembedPlan} {indices : List Index} {into : Index}
    {kind : PowerKind} {embedding : Embedding} (h : plan.Merges inner.free indices into kind embedding)
    (hinner : inner.WellFormed) {t : List Nat} (ht : kind.unrank indices.length (env into) = .ok t)
    {x : List Nat → α}
    (hx : ∀ u ∈ Power.rearrangements t, inner.componentAt m (env.extend indices u) = .ok (x u)) :
    (Expr.coembed inner plan).componentAt m env =
      .ok (((Power.rearrangements t).map fun u => kind.sign u * x u).sum *
        embedding.scale (Power.rearrangements t).length) := by
  rw [componentAt_coembed m env h hinner, ht, ok_bind, foldlM_eq_sum (g := fun u => kind.sign u * x u),
    zero_add]
  · rfl
  · intro u hu a
    rw [hx u hu, ok_bind, PowerKind.sign]
    split
    · rw [one_mul]
      rfl
    · rw [neg_one_mul, ← sub_eq_add_neg]
      rfl

/-! ### The two directions are adjoint -/

section Orbits
variable {kind : PowerKind} {embedding : Embedding} {n : Nat} {b : BoundIndex} {is js : List Index} {q : Index}
  {tuple : Nat → List Nat}

/-- The components of an embedded expression at all tuples: none at those without a sign, and on the orbit
of an index of the power its own one. -/
theorem exists_embed_values {plan : EmbedPlan} {base : Concept}
    (h : plan.EmbedsPower inner.free b is embedding kind base n) (hinner : inner.WellFormed)
    (hsigned : ∀ orbit, 0 < orbit → embedding.Signed α orbit)
    (htuple : ∀ r < b.dim, kind.unrank is.length r = .ok (tuple r))
    {x : Nat → α} (hx : ∀ r < b.dim, inner.componentAt m (env.extend [b.index] [r]) = .ok (x r)) :
    ∃ z : List Nat → α, (∀ u ∈ Box.multiIndices (List.replicate is.length n),
        (Expr.embed inner plan).componentAt m (env.extend is u) = .ok (z u) ∧
          ((kind.canonicalize u).1 = 0 → z u = 0)) ∧
      ∀ r < b.dim, ∀ u ∈ Power.rearrangements (tuple r),
        z u = x r * (kind.sign u * embedding.scale (Power.rearrangements (tuple r)).length) := by
  have hdegree : is.length < Count.limit := Nat.lt_of_le_of_lt h.length_into_le (by decide)
  have horbit : ∀ r < b.dim, ∀ u ∈ Power.rearrangements (tuple r),
      (Expr.embed inner plan).componentAt m (env.extend is u) =
        .ok (x r * (kind.sign u * embedding.scale (Power.rearrangements (tuple r)).length)) := by
    intro r hr u hu
    obtain ⟨hcanonical, hcode⟩ := PowerKind.isCanonical_tuple hdegree h.dimension htuple hr
    obtain ⟨hrank, -⟩ := PowerKind.rank_of_isCanonical hdegree h.dimension hcanonical
    rw [hcode] at hrank
    rw [componentAt_embed_of_perm h hinner (hsigned _ (List.length_pos_of_mem hu)) hcanonical hrank
      (Power.mem_rearrangements.1 hu), hx r hr]
    rfl
  have hall : ∀ u ∈ Box.multiIndices (List.replicate is.length n),
      ∃ z, (Expr.embed inner plan).componentAt m (env.extend is u) = .ok z ∧
        ((kind.canonicalize u).1 = 0 → z = 0) := by
    intro u hu
    by_cases hsign : (kind.canonicalize u).1 = 0
    · have hlength : is.length = u.length := by
        rw [Box.length_of_mem_multiIndices hu, List.length_replicate]
      exact ⟨0, componentAt_embed_of_sign h hinner hlength hsign, fun _ => rfl⟩
    · obtain ⟨r, hr, hur⟩ := PowerKind.exists_orbit hdegree h.dimension htuple hu hsign
      exact ⟨_, horbit r hr u hur, fun hzero => absurd hzero hsign⟩
  choose! z hz using hall
  refine ⟨z, hz, fun r hr u hu => ?_⟩
  obtain ⟨hbox, -⟩ := PowerKind.mem_multiIndices_of_orbit hdegree h.dimension htuple hr hu
  exact Except.ok.inj ((hz u hbox).1.symm.trans (horbit r hr u hu))

theorem coembed_value {plan : CoembedPlan} (h : plan.Merges inner.free js q kind embedding)
    (hinner : inner.WellFormed) {r : Nat} (htuple : kind.unrank js.length r = .ok (tuple r))
    {y : List Nat → α}
    (hy : ∀ u ∈ Power.rearrangements (tuple r), inner.componentAt m (env.extend js u) = .ok (y u)) :
    (Expr.coembed inner plan).componentAt m (env.extend [q] [r]) =
      .ok (((Power.rearrangements (tuple r)).map fun u => kind.sign u * y u).sum *
        embedding.scale (Power.rearrangements (tuple r)).length) := by
  have hvalue : env.extend [q] [r] q = r := by simp [Assignment.extend]
  refine componentAt_coembed_of_ok h hinner (by rw [hvalue, htuple]) fun u hu => ?_
  have hlength : js.length = u.length := by
    rw [(Power.mem_rearrangements.1 hu).length_eq, (PowerKind.sorted_of_unrank htuple).1]
  rw [componentAt_extend h.nodup hlength (by simpa using h.fresh), hy u hu]

end Orbits

end Exact

theorem Total.extend (htotal : e.Total m) (he : e.WellFormed) {is : List Index} (his : is.Nodup)
    (henv : InRange (without e.free is) env) {us : List Nat}
    (hus : Box.InBox us (is.map (extentOf e.free))) : ∃ x, e.componentAt m (env.extend is us) = .ok x :=
  htotal _ (InRange.extend he.nodup his (fun b hb hmem => henv b (mem_without.2 ⟨hb, hmem⟩)) hus)

omit [Scalar α] in
theorem Sound.map_extentOf (he : e.Sound) {is : List Index} {base : Concept} {n : Nat}
    (his : ∀ i ∈ is, i ∈ symbols e.free) (hbase : ∀ b ∈ e.free, b.index ∈ is → b.factor = base)
    (hn : base.dimension = .ok n) : is.map (extentOf e.free) = List.replicate is.length n := by
  rw [List.map_eq_replicate_iff]
  intro i hi
  obtain ⟨b, hb, rfl⟩ := mem_symbols.1 (his i hi)
  rw [extentOf_index he.nodup hb]
  have hdim := he.dimension b hb
  rw [hbase b hb hi, hn] at hdim
  exact (Except.ok.inj hdim).symm

/-- The sum over all tuples of an embedded expression with tensors is the sum over the power of the
expression with the tensors taken back. -/
theorem sum_embed_mul [Scalar.IsCommRing α] {s t es ct : Expr α} (hs : Made s) (ht : Made t)
    (hsm : s.Total m) (htm : t.Total m) {kind : PowerKind} {embedding : Embedding}
    (hsigned : ∀ orbit, 0 < orbit → embedding.Signed α orbit) {base : Concept} {n : Nat}
    (hn : base.dimension = .ok n) {b : BoundIndex} (hb : b ∈ s.free) {is js : List Index} {q : Index}
    (hpower : Concept.basedPower kind base js.length = .ok b.factor)
    (hbase : ∀ c ∈ t.free, c.index ∈ js → c.factor = base)
    (hes : s.embedInto b.index is embedding = .ok es) (hct : t.coembedInto js q kind embedding = .ok ct)
    {env env' : Assignment} (henv : InRange (without s.free [b.index]) env)
    (henv' : InRange (without t.free js) env') :
    ∃ d total, kind.dimension n js.length = .ok d ∧
      sumOn (Box.multiIndices (List.replicate js.length n)) (fun u => do
        return (← es.componentAt m (env.extend is u)) * (← t.componentAt m (env'.extend js u))) = .ok total ∧
      sumOn (List.range d) (fun r => do
        return (← s.componentAt m (env.extend [b.index] [r])) *
          (← ct.componentAt m (env'.extend [q] [r]))) = .ok total := by
  let _ : CommRing α := Scalar.commRing α
  obtain ⟨hlength, plan, n', rfl, hplan⟩ := embedInto_power hs.sound hb hpower hes
  obtain rfl := Except.ok.inj (hn.symm.trans hplan.base_dimension)
  obtain ⟨plan', rfl, hplan'⟩ := coembedInto_base ht.sound hbase hct
  have hdegree : js.length < Count.limit := Nat.lt_of_le_of_lt (hlength ▸ hplan.length_into_le) (by decide)
  have hd : kind.dimension n js.length = .ok b.dim := hlength ▸ hplan.dimension
  have htuple : ∀ r < b.dim, ∃ w, kind.unrank js.length r = .ok w := by
    intro r hr
    obtain ⟨w, hw, -⟩ := PowerKind.unrank_of_lt hdegree hd hr
    exact ⟨w, hw⟩
  -- the components of the two operands are there, and those of the two results are made of them
  have hx : ∀ r < b.dim, ∃ x, s.componentAt m (env.extend [b.index] [r]) = .ok x := by
    intro r hr
    refine hsm.extend hs.sound.toWellFormed (List.nodup_singleton _) henv ?_
    rw [List.map_singleton, extentOf_index hs.sound.nodup hb]
    exact .cons hr .nil
  have hy : ∀ u ∈ Box.multiIndices (List.replicate js.length n),
      ∃ y, t.componentAt m (env'.extend js u) = .ok y := by
    intro u hu
    refine htm.extend ht.sound.toWellFormed hplan'.nodup henv' ?_
    rw [ht.sound.map_extentOf (fun j hj => hplan'.located.mem_names hj) hbase hn]
    exact Box.mem_multiIndices.1 hu
  choose! tuple htuple using htuple
  choose! x hx using hx
  choose! y hy using hy
  obtain ⟨z, hz, horbit⟩ := exists_embed_values hplan hs.sound.toWellFormed hsigned (hlength ▸ htuple) hx
  rw [hlength] at hz
  have hcoembed : ∀ r < b.dim, (Expr.coembed t plan').componentAt m (env'.extend [q] [r]) = _ := fun r hr =>
    coembed_value hplan'.toMerges ht.sound.toWellFormed (htuple r hr) fun u hu =>
      hy u (PowerKind.mem_multiIndices_of_orbit hdegree hd htuple hr hu).1
  refine ⟨b.dim, _, hd, sumOn_eq (g := fun u => z u * y u) fun u hu => ?_, ?_⟩
  · rw [(hz u hu).1, hy u hu]
    rfl
  · rw [PowerKind.sum_multiIndices_mul hdegree hd htuple (fun u hu => (hz u hu).2) horbit]
    refine sumOn_eq fun r hr => ?_
    rw [hx r (List.mem_range.1 hr), hcoembed r (List.mem_range.1 hr)]
    rfl

/-- A 2-form and an array of rank 2 on three dimensions, over the integers. -/
theorem sum_embed_mul_form : ∃ (s t es ct : Expr Int) (m : Memory Int) (total : Int),
    s.embedInto (.ofChar 'a') [.ofChar 'i', .ofChar 'j'] .natural = .ok es ∧
    t.coembedInto [.ofChar 'k', .ofChar 'l'] (.ofChar 'c') .exterior .natural = .ok ct ∧
    sumOn (Box.multiIndices [3, 3]) (fun u => do
      return (← es.componentAt m (Assignment.extend (fun _ => 0) [.ofChar 'i', .ofChar 'j'] u)) *
        (← t.componentAt m (Assignment.extend (fun _ => 0) [.ofChar 'k', .ofChar 'l'] u))) = .ok total ∧
    sumOn (List.range 3) (fun r => do
      return (← s.componentAt m (Assignment.extend (fun _ => 0) [.ofChar 'a'] [r])) *
        (← ct.componentAt m (Assignment.extend (fun _ => 0) [.ofChar 'c'] [r]))) = .ok total := by
  let space := Concept.realSpace 3
  let forms : {c // Concept.basedPower .exterior space 2 = .ok c} := ⟨_, rfl⟩
  have hspace := Concept.based_realSpace 3
  let m : Memory Int := ⟨8, ((List.range 12).map fun k => (k : Int)).toArray⟩
  let s : {e : Expr Int // Expr.indexed (.readOnly ⟨0, 3, true⟩) [.ofChar 'a'] [forms.1] = .ok e} := ⟨_, rfl⟩
  let t : {e : Expr Int // Expr.indexed (.readOnly ⟨3, 9, true⟩) [.ofChar 'k', .ofChar 'l'] [space, space] =
    .ok e} := ⟨_, rfl⟩
  let es : {e // s.1.embedInto (.ofChar 'a') [.ofChar 'i', .ofChar 'j'] .natural = .ok e} := ⟨_, rfl⟩
  let ct : {e // t.1.coembedInto [.ofChar 'k', .ofChar 'l'] (.ofChar 'c') .exterior .natural = .ok e} := ⟨_, rfl⟩
  have hs : s.1.Total m :=
    (evaluable_indexed ⟨by simp [Storage.Valid, m], by simpa using hspace.power forms.2, rfl, by decide⟩ s.2).total
  have ht : t.1.Total m :=
    (evaluable_indexed ⟨by simp [Storage.Valid, m], by simpa using hspace, rfl, by decide⟩ t.2).total
  have hsigned : ∀ orbit, 0 < orbit → Embedding.natural.Signed Int orbit := by
    intro orbit _
    show (Scalar.ofDouble (.ofInt (-1)) : Int) = -Scalar.ofDouble (.ofInt 1)
    decide
  have hbound : (⟨.ofChar 'a', forms.1, 3⟩ : BoundIndex) ∈ s.1.free := List.mem_singleton.2 rfl
  have hrange : InRange (without s.1.free [.ofChar 'a']) fun _ => 0 := by decide
  have hrange' : InRange (without t.1.free [.ofChar 'k', .ofChar 'l']) fun _ => 0 := by decide
  obtain ⟨d, total, hd, hsum, hsum'⟩ := sum_embed_mul ⟨.indexed _ _ _ s.2⟩ ⟨.indexed _ _ _ t.2⟩ hs ht
    hsigned rfl hbound forms.2 (by decide) es.2 ct.2 hrange hrange'
  cases hd
  exact ⟨s.1, t.1, es.1, ct.1, m, total, es.2, ct.2, hsum, hsum'⟩

/-! ### There and back -/

omit [Scalar α] in
/-- Embedded indices can be merged again. This puts a new index for the old one in last place. -/
theorem coembedInto_embed_ok {s : Expr α} (hs : s.Sound) {b : BoundIndex} (hb : b ∈ s.free) {kind : PowerKind}
    {base : Concept} {embedding : Embedding} {is : List Index} (hne : is ≠ [])
    (hpower : Concept.basedPower kind base is.length = .ok b.factor) {plan : EmbedPlan} {n : Nat}
    (h : plan.EmbedsPower s.free b is embedding kind base n)
    (hes : s.embedInto b.index is embedding = .ok (.embed s plan)) {q : Index}
    (hq : q ∉ symbols (without s.free [b.index])) (hused : q ∉ s.used) :
    ∃ plan', (Expr.embed s plan).coembedInto is q kind embedding = .ok (.coembed (.embed s plan) plan') ∧
      plan'.MergesBase plan.free is q kind embedding base ∧
      plan'.free = without s.free [b.index] ++ [⟨q, b.factor, b.dim⟩] := by
  have hdim := hs.dimension b hb
  have hfree : ∀ i ∈ is, i ∈ symbols plan.free := by
    intro i hi
    rw [h.symbols_free]
    exact List.mem_append_right _ hi
  obtain ⟨cs, hcs⟩ := coembedInto_ok (e := .embed s plan) embedding hne h.nodup hfree h.factor_eq
    (h.without_free ▸ hq) hused hpower hdim
  obtain ⟨plan', rfl, hplan'⟩ := coembedInto_base (hs.embedInto hes) h.factor_eq hcs
  refine ⟨plan', hcs, hplan', ?_⟩
  obtain ⟨power, dim, hpower', hdim', hfree'⟩ := hplan'.free_power
  obtain rfl := Except.ok.inj (hpower.symm.trans hpower')
  obtain rfl := Except.ok.inj (hdim.symm.trans hdim')
  rw [← h.without_free]
  exact hfree'

section Exact
variable [Scalar.IsCommRing α]

attribute [local instance] Scalar.commRing

/-- Each tuple of the orbit gives the same, so the component is multiplied by their number and twice by
their coefficient. -/
theorem componentAt_coembed_embed {s : Expr α} (hs : s.WellFormed) {b : BoundIndex} {is : List Index}
    {q : Index} {kind : PowerKind} {embedding : Embedding} {base : Concept} {n : Nat} {plan : EmbedPlan}
    {plan' : CoembedPlan} (h : plan.EmbedsPower s.free b is embedding kind base n)
    (h' : plan'.MergesBase plan.free is q kind embedding base) {t : List Nat}
    (hsigned : embedding.Signed α (Power.rearrangements t).length)
    (ht : kind.unrank is.length (env q) = .ok t) (hcanonical : kind.IsCanonical n is.length t)
    (hrank : kind.rank t = .ok (env q)) :
    (Expr.coembed (.embed s plan) plan').componentAt m env = (do
      let x ← s.componentAt m (env.extend [b.index] [env q])
      let c := embedding.scale (Power.rearrangements t).length
      return x * (c * c * (Power.rearrangements t).length)) := by
  have hwf : (Expr.embed s plan).WellFormed := ⟨h.nodup_free hs.nodup, length_symbols ▸ h.rank_le⟩
  have hterm : ∀ u ∈ Power.rearrangements t, (Expr.embed s plan).componentAt m (env.extend is u) = _ :=
    fun u hu => componentAt_embed_of_perm h hs hsigned hcanonical hrank (Power.mem_rearrangements.1 hu)
  cases hx : s.componentAt m (env.extend [b.index] [env q]) with
  | error fault =>
    -- an orbit is not empty, so its first tuple meets the fault
    obtain ⟨u, us, hus⟩ := List.exists_cons_of_ne_nil
      (List.ne_nil_of_mem (Power.mem_rearrangements.2 (.refl t)))
    rw [componentAt_coembed m env h'.toMerges hwf, ht, ok_bind, hus, List.foldlM_cons,
      hterm u (by rw [hus]; exact List.mem_cons_self), hx]
    rfl
  | ok x =>
    rw [hx] at hterm
    have hsame : ∀ u ∈ Power.rearrangements t,
        kind.sign u * (x * (kind.sign u * embedding.scale (Power.rearrangements t).length)) =
          x * embedding.scale (Power.rearrangements t).length := by
      intro u _
      calc kind.sign u * (x * (kind.sign u * embedding.scale (Power.rearrangements t).length))
          = kind.sign u * kind.sign u * (x * embedding.scale (Power.rearrangements t).length) := by ring
        _ = x * embedding.scale (Power.rearrangements t).length := by rw [PowerKind.sign_mul_self, one_mul]
    rw [componentAt_coembed_of_ok h'.toMerges hwf ht hterm, List.map_congr_left hsame, List.map_const',
      List.sum_replicate, nsmul_eq_mul, ok_bind]
    dsimp only
    rw [pure_eq_ok]
    congr 1
    ring

end Exact

/-- An embedded expression can be taken back to the power. This puts a new index for the old one in last
place, and multiplies each component by the size of the orbit of its tuple. It changes nothing if the
coefficients are such that an orbit has norm one. -/
theorem coembed_embed [Scalar.IsCommRing α] {s es : Expr α} (hs : Made s) {b : BoundIndex} (hb : b ∈ s.free)
    {kind : PowerKind} {base : Concept} {degree : Nat} (hpos : 1 ≤ degree)
    (hpower : Concept.basedPower kind base degree = .ok b.factor) {embedding : Embedding} {is : List Index}
    (hes : s.embedInto b.index is embedding = .ok es) {q : Index}
    (hq : q ∉ symbols (without s.free [b.index])) (hused : q ∉ s.used) :
    ∃ cs, es.coembedInto is q kind embedding = .ok cs ∧
    cs.free = without s.free [b.index] ++ [⟨q, b.factor, b.dim⟩] ∧
    ∀ m env, env q < b.dim → ∃ t orbit, kind.unrank degree (env q) = .ok t ∧
      Power.orbitSize t = .ok orbit ∧ (kind = .exterior → orbit = degree.factorial) ∧
      (embedding = .natural → (Scalar.ofDouble (.ofInt 1) : α) = 1 →
        (Scalar.ofDouble (.ofInt (-1)) : α) = -1 →
        cs.componentAt m env =
          (do return orbit.unaryCast * (← s.componentAt m (env.extend [b.index] [env q])))) ∧
      (embedding = .orthonormal → embedding.Signed α orbit →
        embedding.scale orbit * embedding.scale orbit * orbit.unaryCast = (1 : α) →
        cs.componentAt m env = s.componentAt m (env.extend [b.index] [env q])) := by
  let _ : CommRing α := Scalar.commRing α
  obtain ⟨rfl, plan, n, rfl, hplan⟩ := embedInto_power hs.sound hb hpower hes
  obtain ⟨plan', hcs, hplan', hfree⟩ :=
    coembedInto_embed_ok hs.sound hb (List.ne_nil_of_length_pos hpos) hpower hplan hes hq hused
  refine ⟨_, hcs, hfree, ?_⟩
  intro m env hr
  have hdegree : is.length < Count.limit := Nat.lt_of_le_of_lt hplan.length_into_le (by decide)
  obtain ⟨t, ht, hcanonical, hcode⟩ := PowerKind.unrank_of_lt hdegree hplan.dimension hr
  obtain ⟨hrank, -⟩ := PowerKind.rank_of_isCanonical hdegree hplan.dimension hcanonical
  rw [hcode] at hrank
  have hsmall : t.length.factorial < Count.limit := factorial_lt_limit (hcanonical.length ▸ hplan.length_into_le)
  have hcomponent := fun hsigned =>
    componentAt_coembed_embed (m := m) hs.sound.toWellFormed hplan hplan' hsigned ht hcanonical hrank
  refine ⟨t, _, ht, Power.orbitSize_eq hcanonical.sorted_le hsmall, ?_, ?_, ?_⟩
  · rintro rfl
    rw [Power.length_rearrangements_of_nodup (hcanonical.sorted.imp Nat.ne_of_lt), hcanonical.length]
  · rintro rfl hone hneg
    have hscale : Embedding.natural.scale (Power.rearrangements t).length = (1 : α) := hone
    rw [hcomponent (hneg.trans (congrArg Neg.neg hone.symm))]
    dsimp only
    rw [hscale, mul_one, one_mul]
    congr 1
    funext x
    rw [mul_comm]
    rfl
  · rintro rfl hsigned hnorm
    have hnorm : Embedding.orthonormal.scale (Power.rearrangements t).length *
      Embedding.orthonormal.scale (Power.rearrangements t).length *
        ((Power.rearrangements t).length : α) = 1 := hnorm
    rw [hcomponent hsigned]
    dsimp only
    rw [hnorm]
    simp only [mul_one]
    exact bind_pure _

/-- A 2-form on three dimensions comes back twice as large, under a new name. -/
theorem coembed_embed_form : ∃ (s es cs : Expr Int) (m : Memory Int),
    s.embedInto (.ofChar 'a') [.ofChar 'i', .ofChar 'j'] .natural = .ok es ∧
    es.coembedInto [.ofChar 'i', .ofChar 'j'] (.ofChar 'c') .exterior .natural = .ok cs ∧
    cs.freeSymbols = [.ofChar 'c'] ∧
    cs.componentAt m (fun _ => 1) = (do return 2 * (← s.componentAt m fun _ => 1)) := by
  let space := Concept.realSpace 3
  let forms : {c // Concept.basedPower .exterior space 2 = .ok c} := ⟨_, rfl⟩
  let m : Memory Int := ⟨8, #[5, 6, 7]⟩
  let s : {e : Expr Int // Expr.indexed (.readOnly ⟨0, 3, true⟩) [.ofChar 'a'] [forms.1] = .ok e} := ⟨_, rfl⟩
  let es : {e // s.1.embedInto (.ofChar 'a') [.ofChar 'i', .ofChar 'j'] .natural = .ok e} := ⟨_, rfl⟩
  have hbound : (⟨.ofChar 'a', forms.1, 3⟩ : BoundIndex) ∈ s.1.free := List.mem_singleton.2 rfl
  obtain ⟨cs, hcs, hfree, hcomponents⟩ := coembed_embed ⟨.indexed _ _ _ s.2⟩ hbound (by decide) forms.2 es.2
    (q := .ofChar 'c') (by decide) (by decide)
  obtain ⟨t, orbit, -, -, horbit, hnatural, -⟩ := hcomponents m (fun _ => 1) (by decide)
  obtain rfl := horbit rfl
  exact ⟨s.1, es.1, cs, m, es.2, hcs, congrArg symbols hfree, hnatural rfl rfl rfl⟩

end Expr

end TensorCalculus
