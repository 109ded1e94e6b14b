import TensorCalculus.Proofs.Summation

/-!
# The algebra of sums and products

Over scalars that obey the laws of algebra, sums and products of expressions obey them too. A product does
not depend on how it is grouped (`mul_grouping`), it distributes over a sum (`mul_distributes`), and the
operands of a sum or a product may change places (`operands_commute`). The two sides contract at different
nodes and in different orders; each is brought to one sum over all contracted symbols.
-/

namespace TensorCalculus

namespace Expr
variable {α : Type} {e left right a b c ab bc : Expr α} {i : Index}

theorem mem_shared : i ∈ shared left right ↔ i ∈ symbols left.free ∧ i ∈ symbols right.free :=
  Occurrence.mem_common

theorem nodup_shared (hleft : left.Sound) : (shared left right).Nodup := hleft.nodup.filter _

theorem Sound.mem_symbols_mul (hleft : left.Sound) (hright : right.Sound)
    (h : left.mul right = .ok e) : i ∈ symbols e.free ↔
      (i ∈ symbols left.free ∧ i ∉ symbols right.free) ∨
        (i ∈ symbols right.free ∧ i ∉ symbols left.free) := by
  rw [mul_free h hleft.nodup hright.nodup, symbols_append, List.mem_append, mem_symbols_without,
    mem_symbols_without]

theorem mem_used_mul (h : left.mul right = .ok e) :
    i ∈ e.used ↔ i ∈ left.used ∨ i ∈ right.used ∨ i ∈ shared left right := by
  rw [(mul_used h).2.1, Occurrence.mem_distinct, List.mem_append, List.mem_append, or_assoc]
  rfl

/-! ### Where two expressions have the same components -/

section Same
variable [Scalar α] {m : Memory α} {e' : Expr α}

/-- Wherever both expressions have a component it is the same. -/
def SameComponents (m : Memory α) (e e' : Expr α) : Prop :=
  ∀ env x y, e.componentAt m env = .ok x → e'.componentAt m env = .ok y → x = y

theorem SameComponents.componentAt (h : SameComponents m e e') (hfree : e.free.Perm e'.free)
    (he : e.Total m) (he' : e'.Total m) {env : Assignment} (henv : InRange e.free env) :
    ∃ x, e.componentAt m env = .ok x ∧ e'.componentAt m env = .ok x := by
  obtain ⟨x, hx⟩ := he env henv
  obtain ⟨y, hy⟩ := he' env fun b hb => henv b (hfree.mem_iff.2 hb)
  exact ⟨x, hx, h env x y hx hy ▸ hy⟩

theorem SameComponents.component (h : SameComponents m e e') (he : e.Sound) (hfree : e.free = e'.free)
    {values : List Nat} (hvalues : Box.InBox values (e.free.map BoundIndex.dim)) :
    (∀ x y, e.component m values = .ok x → e'.component m values = .ok y → x = y) ∧
      (e.Total m → e'.Total m → ∃ x, e.component m values = .ok x ∧ e'.component m values = .ok x) := by
  obtain ⟨env, rfl, henv⟩ := exists_inRange he.nodup hvalues
  have hrow : e'.component m ((symbols e.free).map env) = e'.componentAt m env := by
    rw [hfree, Expr.componentAt]
  rw [hrow]
  exact ⟨h env, fun htotal htotal' => h.componentAt (hfree ▸ .refl _) htotal htotal' henv⟩

end Same

/-! ### Grouping -/

section Grouping
variable {l r : Expr α}

/-- What the inner product contracts is used up. -/
theorem not_mem_of_shared (hab : a.mul b = .ok ab) (hl : ab.mul c = .ok l) (hi : i ∈ shared a b) :
    i ∉ symbols c.free :=
  (mul_used hl).1.left_used i ((mem_used_mul hab).2 (.inr (.inr hi)))

/-- A symbol that stays free keeps its extent. -/
theorem Sound.extentOf_mul (hleft : left.Sound) (hright : right.Sound)
    (h : left.mul right = .ok e) (hi : i ∈ symbols e.free) :
    extentOf e.free i = extentOf (left.free ++ right.free) i := by
  rw [mul_free h hleft.nodup hright.nodup]
  rcases (hleft.mem_symbols_mul hright h).1 hi with ⟨hil, hir⟩ | ⟨hir, hil⟩
  · rw [extentOf_append_left (mem_symbols_without.2 ⟨hil, hir⟩), extentOf_without hir,
      extentOf_append_left hil]
  · rw [extentOf_append_right fun hi => hil (mem_symbols_without.1 hi).1, extentOf_without hil,
      extentOf_append_right hil]

theorem mul_mul_free (ha : a.Sound) (hb : b.Sound) (hc : c.Sound) (hab : a.mul b = .ok ab)
    (hl : ab.mul c = .ok l) (hbc : b.mul c = .ok bc) (hr : a.mul bc = .ok r) : l.free = r.free := by
  have hthree : ∀ i ∈ symbols a.free, i ∈ symbols b.free → i ∉ symbols c.free := fun i hia hib =>
    not_mem_of_shared hab hl (mem_shared.2 ⟨hia, hib⟩)
  have hwab := ha.mul hb hab
  have hwbc := hb.mul hc hbc
  rw [mul_free hl hwab.nodup hc.nodup, mul_free hr ha.nodup hwbc.nodup, mul_free hab ha.nodup hb.nodup,
    mul_free hbc hb.nodup hc.nodup, without_append, without_append, without_without, without_without,
    without_without, without_without, List.append_assoc]
  congr 1
  · refine without_congr fun x hx => ?_
    have := hthree x.index (index_mem_symbols hx)
    simp only [symbols_append, List.mem_append, mem_symbols_without]
    tauto
  congr 1
  · refine without_congr fun x _ => ?_
    simp only [List.mem_append]
    tauto
  · refine without_congr fun x hx => ?_
    have := fun hia hib => hthree x.index hia hib (index_mem_symbols hx)
    simp only [symbols_append, List.mem_append, mem_symbols_without]
    tauto

/-- Either way what is free in two of the three factors is contracted. -/
theorem shared_mul_perm (ha : a.Sound) (hb : b.Sound) (hc : c.Sound) (hab : a.mul b = .ok ab)
    (hl : ab.mul c = .ok l) (hbc : b.mul c = .ok bc) :
    (shared ab c ++ shared a b).Perm (shared a bc ++ shared b c) := by
  have hthree : ∀ i ∈ symbols a.free, i ∈ symbols b.free → i ∉ symbols c.free := fun i hia hib =>
    not_mem_of_shared hab hl (mem_shared.2 ⟨hia, hib⟩)
  have hmem := fun i => ha.mem_symbols_mul (i := i) hb hab
  have hmem' := fun i => hb.mem_symbols_mul (i := i) hc hbc
  refine (List.perm_ext_iff_of_nodup ?_ ?_).2 fun i => ?_
  · refine List.nodup_append'.2 ⟨nodup_shared (ha.mul hb hab), nodup_shared ha, fun i hi hi' => ?_⟩
    exact not_mem_of_shared hab hl hi' (mem_shared.1 hi).2
  · refine List.nodup_append'.2 ⟨nodup_shared ha, nodup_shared hb, fun i hi hi' => ?_⟩
    exact hthree i (mem_shared.1 hi).1 (mem_shared.1 hi').1 (mem_shared.1 hi').2
  · have := hthree i
    simp only [List.mem_append, mem_shared, hmem, hmem']
    tauto

variable [Scalar α] [Scalar.IsSemiring α] {m : Memory α} {env : Assignment} {x : α}

attribute [local instance] Scalar.semiring

theorem componentAt_mul_left (ha : a.Sound) (hb : b.Sound) (hc : c.Sound)
    (hab : a.mul b = .ok ab) (hl : ab.mul c = .ok l) (hx : l.componentAt m env = .ok x) :
    x = sumAll (extentOf (a.free ++ b.free)) (shared ab c ++ shared a b)
      (fun env => a.valueAt m env * b.valueAt m env * c.valueAt m env) env := by
  obtain ⟨rfl, hterms⟩ := (ha.mul hb hab).componentAt_mul hc hl hx
  rw [sumAll_append]
  refine sumAll_congr (fun i hi => ha.extentOf_mul hb hab (mem_shared.1 hi).1) fun env' henv' => ?_
  obtain ⟨⟨y, hy⟩, -⟩ := hterms env' henv'
  rw [valueAt_eq hy, (ha.componentAt_mul hb hab hy).1, sumAll_mul]
  refine sumAll_congr (fun i hi => (extentOf_append_left (mem_shared.1 hi).1).symm) fun env'' henv'' => ?_
  -- the inner sum does not touch the symbols of the third factor
  rw [valueAt_congr (e := c) fun i hi => (henv''.eq i fun hi' => not_mem_of_shared hab hl hi' hi).symm]

theorem componentAt_mul_right (ha : a.Sound) (hb : b.Sound) (hc : c.Sound)
    (hbc : b.mul c = .ok bc) (hr : a.mul bc = .ok r) (hx : r.componentAt m env = .ok x) :
    x = sumAll (extentOf (a.free ++ b.free)) (shared a bc ++ shared b c)
      (fun env => a.valueAt m env * (b.valueAt m env * c.valueAt m env)) env := by
  have hnot : ∀ i ∈ shared b c, i ∉ symbols a.free := fun i hi =>
    (mul_used hr).1.right_used i ((mem_used_mul hbc).2 (.inr (.inr hi)))
  obtain ⟨rfl, hterms⟩ := ha.componentAt_mul (hb.mul hc hbc) hr hx
  rw [sumAll_append]
  refine sumAll_congr (fun i hi => (extentOf_append_left (mem_shared.1 hi).1).symm) fun env' henv' => ?_
  obtain ⟨-, y, hy⟩ := hterms env' henv'
  rw [valueAt_eq hy, (hb.componentAt_mul hc hbc hy).1, mul_sumAll]
  refine sumAll_congr (fun i hi => (extentOf_append_right (hnot i hi)).symm) fun env'' henv'' => ?_
  rw [valueAt_congr (e := a) fun i hi => (henv''.eq i fun hi' => hnot i hi' hi).symm]

theorem sameComponents_mul_mul (ha : a.Sound) (hb : b.Sound) (hc : c.Sound)
    (hab : a.mul b = .ok ab) (hl : ab.mul c = .ok l) (hbc : b.mul c = .ok bc) (hr : a.mul bc = .ok r) :
    SameComponents m l r := by
  intro env x y hx hy
  rw [componentAt_mul_left ha hb hc hab hl hx, componentAt_mul_right ha hb hc hbc hr hy,
    sumAll_perm (shared_mul_perm ha hb hc hab hl hbc)]
  exact sumAll_congr (fun _ _ => rfl) fun env' _ => mul_assoc ..

end Grouping

/-- Both groupings of a product of three have the same free indices and the same components. -/
theorem mul_grouping [Scalar α] [Scalar.IsSemiring α] {l r : Expr α} (ha : a.Made) (hb : b.Made)
    (hc : c.Made) (hab : a.mul b = .ok ab) (hl : ab.mul c = .ok l) (hbc : b.mul c = .ok bc)
    (hr : a.mul bc = .ok r) :
    l.free = r.free ∧ ∀ (m : Memory α) (values : List Nat),
      Box.InBox values (l.free.map BoundIndex.dim) →
        (∀ x y, l.component m values = .ok x → r.component m values = .ok y → x = y) ∧
        (a.Total m → b.Total m → c.Total m →
          ∃ x, l.component m values = .ok x ∧ r.component m values = .ok x) := by
  have sa := ha.sound
  have sb := hb.sound
  have sc := hc.sound
  have sab := sa.mul sb hab
  have sbc := sb.mul sc hbc
  have hfree := mul_mul_free sa sb sc hab hl hbc hr
  refine ⟨hfree, fun m values hvalues => ?_⟩
  obtain ⟨hsame, htotal⟩ := SameComponents.component (m := m) (sameComponents_mul_mul sa sb sc hab hl
    hbc hr) (sab.mul sc hl) hfree hvalues
  refine ⟨hsame, fun ta tb tc => htotal ?_ ?_⟩
  · exact .mul sab sc hl (.mul sa sb hab ta tb) tc
  · exact .mul sa sbc hr ta (.mul sb sc hbc tb tc)

/-- Each two of the three factors share a symbol. -/
theorem mul_grouping_cycle : ∃ (a b c ab bc l r : Expr Int) (m : Memory Int) (x : Int),
    a.mul b = .ok ab ∧ ab.mul c = .ok l ∧ b.mul c = .ok bc ∧ a.mul bc = .ok r ∧
      symbols l.free = [.ofChar 'p', .ofChar 'q'] ∧ l.free = r.free ∧
      l.component m [1, 0] = .ok x ∧ r.component m [1, 0] = .ok x := by
  let space := Concept.realSpace 2
  have hspace := Concept.based_realSpace 2
  let m : Memory Int := ⟨8, ((List.range 20).map fun k => (k : Int)).toArray⟩
  let a : {e : Expr Int // Expr.indexed (.readOnly ⟨0, 8, true⟩) [.ofChar 'i', .ofChar 'j', .ofChar 'p']
    [space, space, space] = .ok e} := ⟨_, rfl⟩
  let b : {e : Expr Int // Expr.indexed (.readOnly ⟨8, 4, true⟩) [.ofChar 'j', .ofChar 'k']
    [space.dual, space] = .ok e} := ⟨_, rfl⟩
  let c : {e : Expr Int // Expr.indexed (.readOnly ⟨12, 8, true⟩) [.ofChar 'k', .ofChar 'q', .ofChar 'i']
    [space.dual, space, space.dual] = .ok e} := ⟨_, rfl⟩
  let ab : {e // a.1.mul b.1 = .ok e} := ⟨_, rfl⟩
  let bc : {e // b.1.mul c.1 = .ok e} := ⟨_, rfl⟩
  obtain ⟨l, hl⟩ := exists_ok_of_isOk (x := ab.1.mul c.1) (by decide +kernel)
  obtain ⟨r, hr⟩ := exists_ok_of_isOk (x := a.1.mul bc.1) (by decide +kernel)
  have hlfree := mul_free hl (by decide +kernel) (by decide +kernel)
  have hta : a.1.Total m :=
    (evaluable_indexed ⟨by simp [Storage.Valid, m], by simpa using hspace, rfl, by decide⟩ a.2).total
  have htb : b.1.Total m :=
    (evaluable_indexed ⟨by simp [Storage.Valid, m], by simpa using ⟨hspace.dual, hspace⟩, rfl, by decide⟩ b.2).total
  have htc : c.1.Total m :=
    (evaluable_indexed ⟨by simp [Storage.Valid, m], by simpa using ⟨hspace.dual, hspace, hspace.dual⟩, rfl,
      by decide⟩ c.2).total
  have hdims : l.free.map BoundIndex.dim = [2, 2] := by rw [hlfree]; decide +kernel
  obtain ⟨hfree, hcomponent⟩ := mul_grouping ⟨.indexed _ _ _ a.2⟩ ⟨.indexed _ _ _ b.2⟩ ⟨.indexed _ _ _ c.2⟩
    ab.2 hl bc.2 hr
  obtain ⟨x, hx, hx'⟩ := (hcomponent m [1, 0] (hdims ▸ .cons (by decide) (.cons (by decide) .nil))).2 hta htb htc
  exact ⟨a.1, b.1, c.1, ab.1, bc.1, l, r, m, x, ab.2, hl, bc.2, hr,
    by rw [hlfree]; decide +kernel, hfree, hx, hx'⟩

/-! ### Distribution over sums -/

section Distribution
variable {s sc ac : Expr α} {op : SumOp}

theorem mem_used_add (h : Expr.add op left right = .ok e) : i ∈ e.used ↔ i ∈ left.used ∨ i ∈ right.used := by
  rw [(add_used h).2, Occurrence.mem_distinct, List.mem_append]

theorem symbols_perm (h : a.free.Perm b.free) : i ∈ symbols a.free ↔ i ∈ symbols b.free :=
  (h.map BoundIndex.index).mem_iff

/-- Operands with the same free indices contract the same symbols. -/
theorem shared_perm (h : a.free.Perm b.free) : (shared a c).Perm (shared b c) :=
  (h.map BoundIndex.index).filter _

theorem without_symbols_perm {bs : List BoundIndex} (h : a.free.Perm b.free) :
    without bs (symbols a.free) = without bs (symbols b.free) :=
  without_congr fun _ _ => symbols_perm h

/-- A factor may be replaced by one with the same free indices that uses no symbol free in the other. -/
theorem Sound.mul_ok_of_perm (ha : a.Sound) (hb : b.Sound) (hc : c.Sound) (hac : a.mul c = .ok ac)
    (hperm : a.free.Perm b.free) (hused : ∀ i ∈ b.used, i ∉ symbols c.free) : ∃ bc, b.mul c = .ok bc := by
  obtain ⟨hcompatible, hdual, hrank⟩ := (ha.mul_ok_iff hc).1 ⟨ac, hac⟩
  refine (hb.mul_ok_iff hc).2 ⟨⟨hused, fun i hi hib => ?_⟩, fun x hx => hdual x (hperm.mem_iff.2 hx), ?_⟩
  · exact hcompatible.right_used i hi ((symbols_perm hperm).2 hib)
  · rw [← without_symbols_perm hperm]
    exact (hperm.filter _).length_eq ▸ hrank

theorem mul_free_perm (ha : a.Sound) (hb : b.Sound) (hc : c.Sound) (hac : a.mul c = .ok ac)
    (hbc : b.mul c = .ok bc) (hperm : a.free.Perm b.free) : ac.free.Perm bc.free := by
  rw [mul_free hac ha.nodup hc.nodup, mul_free hbc hb.nodup hc.nodup, without_symbols_perm hperm]
  exact (hperm.filter _).append_right _

/-- No symbol that the first product has used is free in the second. -/
theorem not_mem_of_mem_used_mul (hb : b.Sound) (hc : c.Sound) (hac : a.mul c = .ok ac)
    (hbc : b.mul c = .ok bc) (hperm : a.free.Perm b.free) (hab : Compatible a b) (hi : i ∈ ac.used) :
    i ∉ symbols bc.free := by
  intro hfree
  have hcompatible := (mul_used hac).1
  rcases (hb.mem_symbols_mul hc hbc).1 hfree with ⟨hib, hic⟩ | ⟨hic, hib⟩ <;>
    rcases (mem_used_mul hac).1 hi with hi | hi | hi
  · exact hab.left_used i hi hib
  · exact hcompatible.right_used i hi ((symbols_perm hperm).2 hib)
  · exact hic (mem_shared.1 hi).2
  · exact hcompatible.left_used i hi hic
  · exact hc.not_used i hic hi
  · exact hib ((symbols_perm hperm).1 (mem_shared.1 hi).1)

theorem Sound.add_mul_ok (ha : a.Sound) (hb : b.Sound) (hc : c.Sound) (hs : Expr.add op a b = .ok s)
    (hsc : s.mul c = .ok sc) : ∃ ac bc r, a.mul c = .ok ac ∧ b.mul c = .ok bc ∧
      Expr.add op ac bc = .ok r ∧ r.free = sc.free := by
  obtain ⟨hab, hperm⟩ := (ha.add_ok_iff hb op).1 ⟨s, hs⟩
  have hsound := ha.add hb hs
  have hused := (mul_used hsc).1.left_used
  obtain ⟨ac, hac⟩ := hsound.mul_ok_of_perm ha hc hsc (add_free hs ▸ .refl _) fun i hi =>
    hused i ((mem_used_add hs).2 (.inl hi))
  obtain ⟨bc, hbc⟩ := hsound.mul_ok_of_perm hb hc hsc (add_free hs ▸ hperm) fun i hi =>
    hused i ((mem_used_add hs).2 (.inr hi))
  have hcompatible : Compatible ac bc :=
    ⟨fun _ => not_mem_of_mem_used_mul hb hc hac hbc hperm hab,
      fun _ => not_mem_of_mem_used_mul ha hc hbc hac hperm.symm hab.symm⟩
  obtain ⟨r, hr⟩ := ((ha.mul hc hac).add_ok_iff (hb.mul hc hbc) op).2
    ⟨hcompatible, mul_free_perm ha hb hc hac hbc hperm⟩
  refine ⟨ac, bc, r, hac, hbc, hr, ?_⟩
  rw [add_free hr, mul_free hac ha.nodup hc.nodup, mul_free hsc hsound.nodup hc.nodup, add_free hs]

variable [Scalar α] [Scalar.IsRing α] {m : Memory α} {r : Expr α}

attribute [local instance] Scalar.semiring

theorem sameComponents_add_mul (ha : a.Sound) (hb : b.Sound) (hc : c.Sound) (hs : Expr.add op a b = .ok s)
    (hsc : s.mul c = .ok sc) (hac : a.mul c = .ok ac) (hbc : b.mul c = .ok bc)
    (hr : Expr.add op ac bc = .ok r) : SameComponents m sc r := by
  intro env x y hx hy
  have hperm := ((ha.add_ok_iff hb op).1 ⟨s, hs⟩).2
  have hshared : shared s c = shared a c := by rw [shared, add_free hs, shared]
  obtain ⟨rfl, hterms⟩ := (ha.add hb hs).componentAt_mul hc hsc hx
  obtain ⟨rfl, ⟨u, hu⟩, v, hv⟩ := (ha.mul hc hac).componentAt_add hr hy
  obtain ⟨rfl, -⟩ := ha.componentAt_mul hc hac hu
  obtain ⟨rfl, -⟩ := hb.componentAt_mul hc hbc hv
  -- the second sum goes through the same symbols in another order
  have hextent : ∀ i ∈ shared a c, extentOf b.free i = extentOf a.free i := fun _ _ =>
    extentOf_perm hb.nodup hperm.symm
  rw [valueAt_eq hu, valueAt_eq hv, sumAll_perm (shared_perm hperm.symm),
    sumAll_congr hextent fun _ _ => rfl, SumOp.apply_sumAll, add_free hs, hshared]
  refine sumAll_congr (fun _ _ => rfl) fun env' henv' => ?_
  obtain ⟨⟨z, hz⟩, -⟩ := hterms env' (by rwa [add_free hs, hshared])
  rw [valueAt_eq hz, (ha.componentAt_add hs hz).1, SumOp.apply_mul]

end Distribution

/-- If the product with a sum is accepted, so is the sum of the products, and it is the same tensor. -/
theorem mul_distributes [Scalar α] [Scalar.IsRing α] {s sc : Expr α} (ha : a.Made) (hb : b.Made) (hc : c.Made)
    {op : SumOp} (hs : Expr.add op a b = .ok s) (hsc : s.mul c = .ok sc) :
    ∃ ac bc r, a.mul c = .ok ac ∧ b.mul c = .ok bc ∧ Expr.add op ac bc = .ok r ∧ r.free = sc.free ∧
      ∀ (m : Memory α) (values : List Nat), Box.InBox values (sc.free.map BoundIndex.dim) →
        (∀ x y, sc.component m values = .ok x → r.component m values = .ok y → x = y) ∧
        (a.Total m → b.Total m → c.Total m →
          ∃ x, sc.component m values = .ok x ∧ r.component m values = .ok x) := by
  have ra := ha.sound
  have rb := hb.sound
  have rc := hc.sound
  have rs := ra.add rb hs
  obtain ⟨ac, bc, r, hac, hbc, hr, hfree⟩ := ra.add_mul_ok rb rc hs hsc
  refine ⟨ac, bc, r, hac, hbc, hr, hfree, fun m values hvalues => ?_⟩
  obtain ⟨hsame, htotal⟩ := SameComponents.component (m := m) (sameComponents_add_mul ra rb rc hs hsc hac
    hbc hr) (rs.mul rc hsc) hfree.symm hvalues
  refine ⟨hsame, fun ta tb tc => htotal ?_ ?_⟩
  · exact .mul rs rc hsc (.add ra rb hs ta tb) tc
  · exact .add (ra.mul rc hac) (rb.mul rc hbc) hr (.mul ra rc hac ta tc) (.mul rb rc hbc tb tc)

/-- A difference of matrices, the second written with its indices exchanged, times a matrix. -/
theorem mul_distributes_difference : ∃ (a b c s sc ac bc r : Expr Int) (m : Memory Int) (x : Int),
    Expr.add .minus a b = .ok s ∧ s.mul c = .ok sc ∧ a.mul c = .ok ac ∧ b.mul c = .ok bc ∧
      Expr.add .minus ac bc = .ok r ∧ symbols sc.free = [.ofChar 'i', .ofChar 'k'] ∧ r.free = sc.free ∧
      sc.component m [1, 0] = .ok x ∧ r.component m [1, 0] = .ok x := by
  let space := Concept.realSpace 2
  have hspace := Concept.based_realSpace 2
  let m : Memory Int := ⟨8, ((List.range 12).map fun k => (k : Int)).toArray⟩
  let a : {e : Expr Int // Expr.indexed (.readOnly ⟨0, 4, true⟩) [.ofChar 'i', .ofChar 'j']
    [space, space] = .ok e} := ⟨_, rfl⟩
  let b : {e : Expr Int // Expr.indexed (.readOnly ⟨4, 4, true⟩) [.ofChar 'j', .ofChar 'i']
    [space, space] = .ok e} := ⟨_, rfl⟩
  let c : {e : Expr Int // Expr.indexed (.readOnly ⟨8, 4, true⟩) [.ofChar 'j', .ofChar 'k']
    [space.dual, space] = .ok e} := ⟨_, rfl⟩
  let s : {e // Expr.add .minus a.1 b.1 = .ok e} := ⟨_, rfl⟩
  obtain ⟨sc, hsc⟩ := exists_ok_of_isOk (x := s.1.mul c.1) (by decide +kernel)
  have hfree := mul_free hsc (by decide +kernel) (by decide +kernel)
  have hta : a.1.Total m :=
    (evaluable_indexed ⟨by simp [Storage.Valid, m], by simpa using hspace, rfl, by decide⟩ a.2).total
  have htb : b.1.Total m :=
    (evaluable_indexed ⟨by simp [Storage.Valid, m], by simpa using hspace, rfl, by decide⟩ b.2).total
  have htc : c.1.Total m :=
    (evaluable_indexed ⟨by simp [Storage.Valid, m], by simpa using ⟨hspace.dual, hspace⟩, rfl, by decide⟩ c.2).total
  have hdims : sc.free.map BoundIndex.dim = [2, 2] := by rw [hfree]; decide +kernel
  obtain ⟨ac, bc, r, hac, hbc, hr, hrfree, hcomponent⟩ := mul_distributes ⟨.indexed _ _ _ a.2⟩
    ⟨.indexed _ _ _ b.2⟩ ⟨.indexed _ _ _ c.2⟩ s.2 hsc
  obtain ⟨x, hx, hx'⟩ := (hcomponent m [1, 0] (hdims ▸ .cons (by decide) (.cons (by decide) .nil))).2 hta htb htc
  exact ⟨a.1, b.1, c.1, s.1, sc, ac, bc, r, m, x, s.2, hsc, hac, hbc, hr,
    by rw [hfree]; decide +kernel, hrfree, hx, hx'⟩

/-! ### Operands that change places -/

section Exchange
variable {e' : Expr α}

theorem shared_comm_perm (ha : a.Sound) (hb : b.Sound) : (shared a b).Perm (shared b a) :=
  (List.perm_ext_iff_of_nodup (nodup_shared ha) (nodup_shared hb)).2 fun _ => by
    rw [mem_shared, mem_shared, and_comm]

theorem Sound.mul_ok_comm (ha : a.Sound) (hb : b.Sound) (h : ∃ e, a.mul b = .ok e) : ∃ e, b.mul a = .ok e := by
  obtain ⟨hcompatible, hdual, hrank⟩ := (ha.mul_ok_iff hb).1 h
  exact (hb.mul_ok_iff ha).2 ⟨hcompatible.symm, hdual.symm, Nat.add_comm .. ▸ hrank⟩

theorem Sound.add_ok_comm (ha : a.Sound) (hb : b.Sound) {op : SumOp} (h : ∃ e, Expr.add op a b = .ok e) :
    ∃ e, Expr.add op b a = .ok e := by
  obtain ⟨hcompatible, hperm⟩ := (ha.add_ok_iff hb op).1 h
  exact (hb.add_ok_iff ha op).2 ⟨hcompatible.symm, hperm.symm⟩

theorem Sound.used_perm (he : e.Sound) (he' : e'.Sound) (h : ∀ i, i ∈ e.used ↔ i ∈ e'.used) :
    e.used.Perm e'.used := (List.perm_ext_iff_of_nodup he.nodup_used he'.nodup_used).2 h

/-- A symbol that is free in both factors has the same extent in both. -/
theorem Sound.extentOf_shared (ha : a.Sound) (hb : b.Sound) (h : a.mul b = .ok e) (hi : i ∈ shared a b) :
    extentOf a.free i = extentOf b.free i := by
  obtain ⟨plan, -, hplan⟩ := mul_eq_ok h ha.nodup hb.nodup
  exact extentOf_eq_of_contracts hplan ha.toWellFormed hb.toWellFormed ha.dimension hb.dimension hi

variable [Scalar α] [Scalar.IsCommSemiring α] {m : Memory α}

attribute [local instance] Scalar.semiring

theorem sameComponents_mul_comm (ha : a.Sound) (hb : b.Sound) (h : a.mul b = .ok e) (h' : b.mul a = .ok e') :
    SameComponents m e e' := by
  intro env x y hx hy
  obtain ⟨rfl, -⟩ := ha.componentAt_mul hb h hx
  obtain ⟨rfl, -⟩ := hb.componentAt_mul ha h' hy
  rw [sumAll_perm (shared_comm_perm ha hb)]
  refine sumAll_congr (fun i hi => (hb.extentOf_shared ha h' hi).symm) fun env' _ => ?_
  exact Scalar.IsCommSemiring.mul_comm ..

theorem sameComponents_add_comm (ha : a.Sound) (hb : b.Sound) (h : Expr.add .plus a b = .ok e)
    (h' : Expr.add .plus b a = .ok e') : SameComponents m e e' := by
  intro env x y hx hy
  obtain ⟨rfl, -⟩ := ha.componentAt_add h hx
  obtain ⟨rfl, -⟩ := hb.componentAt_add h' hy
  exact add_comm ..

end Exchange

/-- Products, and sums, are accepted in either order of their operands and are then the same tensor. -/
theorem operands_commute [Scalar α] [Scalar.IsCommSemiring α] (ha : a.Made) (hb : b.Made) :
    ((∃ e, a.mul b = .ok e) ↔ ∃ e, b.mul a = .ok e) ∧
    (∀ op, (∃ e, Expr.add op a b = .ok e) ↔ ∃ e, Expr.add op b a = .ok e) ∧
    ∀ e e', (a.mul b = .ok e ∧ b.mul a = .ok e') ∨
        (Expr.add .plus a b = .ok e ∧ Expr.add .plus b a = .ok e') →
      e.free.Perm e'.free ∧ e.used.Perm e'.used ∧ ∀ (m : Memory α) (env : Assignment),
        (∀ x y, e.componentAt m env = .ok x → e'.componentAt m env = .ok y → x = y) ∧
        (a.Total m → b.Total m → InRange e.free env →
          ∃ x, e.componentAt m env = .ok x ∧ e'.componentAt m env = .ok x) := by
  have ra := ha.sound
  have rb := hb.sound
  refine ⟨⟨ra.mul_ok_comm rb, rb.mul_ok_comm ra⟩, fun op => ⟨ra.add_ok_comm rb, rb.add_ok_comm ra⟩, ?_⟩
  rintro e e' (⟨h, h'⟩ | ⟨h, h'⟩)
  · have hfree : e.free.Perm e'.free := by
      rw [mul_free h ra.nodup rb.nodup, mul_free h' rb.nodup ra.nodup]
      exact List.perm_append_comm
    refine ⟨hfree, (ra.mul rb h).used_perm (rb.mul ra h') fun i => ?_, fun m env => ?_⟩
    · rw [mem_used_mul h, mem_used_mul h', (shared_comm_perm ra rb).mem_iff, or_left_comm]
    · have hsame : SameComponents m e e' := sameComponents_mul_comm ra rb h h'
      exact ⟨hsame env, fun ta tb => hsame.componentAt hfree (.mul ra rb h ta tb) (.mul rb ra h' tb ta)⟩
  · have hfree : e.free.Perm e'.free := by
      rw [add_free h, add_free h']
      exact ((ra.add_ok_iff rb .plus).1 ⟨e, h⟩).2
    refine ⟨hfree, (ra.add rb h).used_perm (rb.add ra h') fun i => ?_, fun m env => ?_⟩
    · rw [mem_used_add h, mem_used_add h', or_comm]
    · have hsame : SameComponents m e e' := sameComponents_add_comm ra rb h h'
      exact ⟨hsame env, fun ta tb => hsame.componentAt hfree (.add ra rb h ta tb) (.add rb ra h' tb ta)⟩

/-- The product of two matrices. The free indices come in the other order if they change places. -/
theorem operands_commute_matrices : ∃ (a b e e' : Expr Int) (m : Memory Int) (x : Int),
    a.mul b = .ok e ∧ b.mul a = .ok e' ∧ symbols e.free = [.ofChar 'i', .ofChar 'k'] ∧
      symbols e'.free = [.ofChar 'k', .ofChar 'i'] ∧ e.used.Perm e'.used ∧
      e.component m [1, 0] = .ok x ∧ e'.component m [0, 1] = .ok x := by
  let space := Concept.realSpace 2
  have hspace := Concept.based_realSpace 2
  let m : Memory Int := ⟨8, ((List.range 8).map fun k => (k : Int)).toArray⟩
  let a : {e : Expr Int // Expr.indexed (.readOnly ⟨0, 4, true⟩) [.ofChar 'i', .ofChar 'j']
    [space, space] = .ok e} := ⟨_, rfl⟩
  let b : {e : Expr Int // Expr.indexed (.readOnly ⟨4, 4, true⟩) [.ofChar 'j', .ofChar 'k']
    [space.dual, space] = .ok e} := ⟨_, rfl⟩
  let e : {e // a.1.mul b.1 = .ok e} := ⟨_, rfl⟩
  have hta : a.1.Total m :=
    (evaluable_indexed ⟨by simp [Storage.Valid, m], by simpa using hspace, rfl, by decide⟩ a.2).total
  have htb : b.1.Total m :=
    (evaluable_indexed ⟨by simp [Storage.Valid, m], by simpa using ⟨hspace.dual, hspace⟩, rfl, by decide⟩ b.2).total
  obtain ⟨haccepted, -, hsame⟩ := operands_commute ⟨.indexed _ _ _ a.2⟩ ⟨.indexed _ _ _ b.2⟩
  obtain ⟨e', he'⟩ := haccepted.1 ⟨e.1, e.2⟩
  obtain ⟨-, hused, hcomponent⟩ := hsame e.1 e' (.inl ⟨e.2, he'⟩)
  have hfree : symbols e.1.free = [.ofChar 'i', .ofChar 'k'] := by decide +kernel
  have hfree' : symbols e'.free = [.ofChar 'k', .ofChar 'i'] := by
    rw [mul_free he' (by decide +kernel) (by decide +kernel)]
    decide +kernel
  let env : Assignment := fun i => if i = .ofChar 'i' then 1 else 0
  obtain ⟨x, hx, hx'⟩ := (hcomponent m env).2 hta htb (by decide +kernel)
  rw [componentAt, hfree] at hx
  rw [componentAt, hfree'] at hx'
  exact ⟨a.1, b.1, e.1, e', m, x, e.2, he', hfree, hfree', hused, hx, hx'⟩

end Expr

end TensorCalculus
