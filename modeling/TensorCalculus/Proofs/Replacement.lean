import TensorCalculus.Proofs.Acceptance
import TensorCalculus.Proofs.Assignment
import TensorCalculus.Proofs.Safety

/-!
# Evaluation is transparent

An evaluated expression has the free indices of the expression it came from and has forgotten the
symbols that were summed over. The checks of the constructors look at the free indices, and at the summed
symbols only to refuse them. So whatever accepts an expression `e` accepts in its place an expression `e'`
with the same free indices and no further summed symbols; if the components of the two agree in range,
they still agree afterwards (`Replaces.fill`), however many constructors are put around them
(`Replaces.plug`). The array of components is such a replacement (`Evaluable.replaces_evaluated`), in the
memory that it is put into and in every later one that only has new cells. This gives `eval_transparent`.
-/

namespace TensorCalculus

namespace Expr

/-! ### What the checks look at -/

section Checks
variable {α : Type} {e e' left left' right right' r : Expr α} {indices : List Index} {into : Index}

theorem Compatible.mono (h : Compatible left right) (hleft : left'.free = left.free)
    (hright : right'.free = right.free) (husedLeft : ∀ i ∈ left'.used, i ∈ left.used)
    (husedRight : ∀ i ∈ right'.used, i ∈ right.used) : Compatible left' right' := by
  constructor
  · intro i hi
    rw [hright]
    exact h.left_used i (husedLeft i hi)
  · intro i hi
    rw [hleft]
    exact h.right_used i (husedRight i hi)

section
variable (hfree : e'.free = e.free) (hused : ∀ i ∈ e'.used, i ∈ e.used)
include hfree hused

theorem checkFresh_mono {released : List Index} {i : Index} (h : e.checkFresh released i = .ok ()) :
    e'.checkFresh released i = .ok () := by
  obtain ⟨hfresh, hnot⟩ := checkFresh_eq_ok.1 h
  refine checkFresh_eq_ok.2 ⟨?_, fun hi => hnot (hused i hi)⟩
  rwa [hfree]

theorem forM_checkFresh_mono {released is : List Index} (h : is.forM (e.checkFresh released) = .ok ()) :
    is.forM (e'.checkFresh released) = .ok () := by
  rw [forM_eq_ok] at h ⊢
  intro i hi
  exact checkFresh_mono hfree hused (h i hi)

theorem bundleInto_mono (h : e.bundleInto indices into = .ok r) :
    ∃ plan, r = .bundle e plan ∧ e'.bundleInto indices into = .ok (.bundle e' plan) := by
  unfold bundleInto at h ⊢
  dsimp only [rank] at h ⊢
  split at h
  · cases h
  next hne =>
  obtain ⟨⟨⟩, hdistinct, h⟩ := bind_eq_ok.1 h
  obtain ⟨bundled, hbundled, h⟩ := bind_eq_ok.1 h
  obtain ⟨⟨⟩, hfresh, h⟩ := bind_eq_ok.1 h
  obtain ⟨factor, hfactor, h⟩ := bind_eq_ok.1 h
  obtain ⟨dim, hdim, h⟩ := bind_eq_ok.1 h
  cases h
  have hfresh' := liftError_eq_ok.2 (checkFresh_mono hfree hused (liftError_eq_ok.1 hfresh))
  refine ⟨_, rfl, ?_⟩
  rw [if_neg hne, hfree, hdistinct, ok_bind, hbundled, ok_bind, hfresh', ok_bind, hfactor, ok_bind, hdim]
  rfl

theorem splitInto_mono {index : Index} {into : List Index} (h : e.splitInto index into = .ok r) :
    ∃ plan, r = .split e plan ∧ e'.splitInto index into = .ok (.split e' plan) := by
  unfold splitInto at h ⊢
  dsimp only [rank] at h ⊢
  rw [hfree]
  obtain ⟨position, hposition, h⟩ := bind_eq_ok.1 h
  rw [hposition, ok_bind]
  split at h
  swap
  · cases h
  next b _ =>
  split at h
  · cases h
  next hclass =>
  obtain ⟨product, hproduct, h⟩ := bind_eq_ok.1 h
  obtain ⟨factors, hfactors, h⟩ := bind_eq_ok.1 h
  split at h
  · cases h
  next hlength =>
  obtain ⟨⟨⟩, hdistinct, h⟩ := bind_eq_ok.1 h
  obtain ⟨⟨⟩, hfresh, h⟩ := bind_eq_ok.1 h
  obtain ⟨⟨⟩, hrank, h⟩ := bind_eq_ok.1 h
  obtain ⟨dims, hdims, h⟩ := bind_eq_ok.1 h
  cases h
  refine ⟨_, rfl, ?_⟩
  rw [if_neg hclass, hproduct, ok_bind, hfactors, ok_bind, if_neg hlength, hdistinct, ok_bind,
    forM_checkFresh_mono hfree hused hfresh, ok_bind, hrank, ok_bind, hdims]
  rfl

theorem embedInto_mono {index : Index} {into : List Index} {embedding : Embedding}
    (h : e.embedInto index into embedding = .ok r) :
    ∃ plan, r = .embed e plan ∧ e'.embedInto index into embedding = .ok (.embed e' plan) := by
  unfold embedInto at h ⊢
  dsimp only [rank] at h ⊢
  rw [hfree]
  obtain ⟨position, hposition, h⟩ := bind_eq_ok.1 h
  rw [hposition, ok_bind]
  split at h
  swap
  · cases h
  next b _ =>
  split at h
  · cases h
  next hclass =>
  obtain ⟨power, hpower, h⟩ := bind_eq_ok.1 h
  split at h
  swap
  · cases h
  next kind hkind =>
  obtain ⟨degree, hdegree, h⟩ := bind_eq_ok.1 h
  split at h
  · cases h
  next hlength =>
  obtain ⟨⟨⟩, hdistinct, h⟩ := bind_eq_ok.1 h
  obtain ⟨⟨⟩, hfresh, h⟩ := bind_eq_ok.1 h
  obtain ⟨⟨⟩, hrank, h⟩ := bind_eq_ok.1 h
  obtain ⟨base, hbase, h⟩ := bind_eq_ok.1 h
  obtain ⟨dim, hdim, h⟩ := bind_eq_ok.1 h
  cases h
  refine ⟨_, rfl, ?_⟩
  rw [if_neg hclass, hpower, ok_bind, hkind]
  dsimp only
  rw [hdegree, ok_bind, if_neg hlength, hdistinct, ok_bind, forM_checkFresh_mono hfree hused hfresh, ok_bind,
    hrank, ok_bind, hbase, ok_bind, hdim]
  rfl

theorem coembedInto_mono {kind : PowerKind} {embedding : Embedding}
    (h : e.coembedInto indices into kind embedding = .ok r) :
    ∃ plan, r = .coembed e plan ∧ e'.coembedInto indices into kind embedding = .ok (.coembed e' plan) := by
  unfold coembedInto at h ⊢
  dsimp only [rank] at h ⊢
  split at h
  · cases h
  next hne =>
  obtain ⟨⟨⟩, hdistinct, h⟩ := bind_eq_ok.1 h
  obtain ⟨merged, hmerged, h⟩ := bind_eq_ok.1 h
  obtain ⟨⟨⟩, hfresh, h⟩ := bind_eq_ok.1 h
  have hfresh' := liftError_eq_ok.2 (checkFresh_mono hfree hused (liftError_eq_ok.1 hfresh))
  rw [if_neg hne, hfree, hdistinct, ok_bind, hmerged, ok_bind, hfresh', ok_bind]
  split at h
  swap
  · cases h
  next first rest _ =>
  obtain ⟨⟨⟩, hfactors, h⟩ := bind_eq_ok.1 h
  obtain ⟨power, hpower, h⟩ := bind_eq_ok.1 h
  obtain ⟨dim, hdim, h⟩ := bind_eq_ok.1 h
  cases h
  refine ⟨_, rfl, ?_⟩
  rw [hfactors, ok_bind, hpower, ok_bind, hdim]
  rfl

end
end Checks

/-! ### Replacing one expression by another -/

section Replace
variable {α : Type} [Scalar α] {m : Memory α} {e e' left left' right right' r : Expr α}

/-- `e'` may stand in for `e`. -/
structure Replaces (m : Memory α) (e e' : Expr α) : Prop where
  evaluable : Evaluable m e
  evaluable' : Evaluable m e'
  free_eq : e'.free = e.free
  used_sub : ∀ i ∈ e'.used, i ∈ e.used
  componentAt_eq : ∀ env, InRange e.free env → e'.componentAt m env = e.componentAt m env

namespace Replaces

theorem refl (h : Evaluable m e) : Replaces m e e := ⟨h, h, rfl, fun _ hi => hi, fun _ _ => rfl⟩

theorem component_eq (h : Replaces m e e') {values : List Nat}
    (hvalues : Box.InBox values (e.free.map BoundIndex.dim)) :
    ∃ x, e.component m values = .ok x ∧ e'.component m values = .ok x := by
  obtain ⟨env, rfl, henv⟩ := exists_inRange h.evaluable.nodup hvalues
  obtain ⟨x, hx⟩ := h.evaluable.total env henv
  have hx' := (h.componentAt_eq env henv).trans hx
  rw [componentAt, h.free_eq] at hx'
  exact ⟨x, hx, hx'⟩

theorem compatible (hleft : Replaces m left left') (hright : Replaces m right right')
    (h : Compatible left right) : Compatible left' right' :=
  h.mono hleft.free_eq hright.free_eq hleft.used_sub hright.used_sub

theorem add (hleft : Replaces m left left') (hright : Replaces m right right') {op : SumOp}
    (h : Expr.add op left right = .ok r) : ∃ r', Expr.add op left' right' = .ok r' ∧ Replaces m r r' := by
  obtain ⟨hcompatible, hperm⟩ := (hleft.evaluable.toSound.add_ok_iff hright.evaluable.toSound op).1 ⟨r, h⟩
  obtain ⟨r', h'⟩ := (hleft.evaluable'.toSound.add_ok_iff hright.evaluable'.toSound op).2
    ⟨hleft.compatible hright hcompatible, by rwa [hleft.free_eq, hright.free_eq]⟩
  refine ⟨r', h', hleft.evaluable.add hright.evaluable h, hleft.evaluable'.add hright.evaluable' h', ?_, ?_, ?_⟩
  · rw [add_free h', add_free h, hleft.free_eq]
  · intro i hi
    rw [(add_used h').2, Occurrence.mem_distinct, List.mem_append] at hi
    rw [(add_used h).2, Occurrence.mem_distinct, List.mem_append]
    exact hi.imp (hleft.used_sub i) (hright.used_sub i)
  · intro env henv
    have henvLeft : InRange left.free env := add_free h ▸ henv
    have henvRight : InRange right.free env := fun b hb => henvLeft b (hperm.mem_iff.2 hb)
    obtain ⟨plan, rfl, hplan⟩ := add_eq_ok h
    obtain ⟨plan', rfl, hplan'⟩ := add_eq_ok h'
    rw [componentAt_sum m env hplan hleft.evaluable.toWellFormed,
      componentAt_sum m env hplan' hleft.evaluable'.toWellFormed, hleft.componentAt_eq env henvLeft,
      hright.componentAt_eq env henvRight]

theorem mul (hleft : Replaces m left left') (hright : Replaces m right right')
    (h : Expr.mul left right = .ok r) : ∃ r', Expr.mul left' right' = .ok r' ∧ Replaces m r r' := by
  have hl := hleft.evaluable.toSound
  have hr := hright.evaluable.toSound
  have hl' := hleft.evaluable'.toSound
  have hr' := hright.evaluable'.toSound
  obtain ⟨hcompatible, hdual, hrank⟩ := (hl.mul_ok_iff hr).1 ⟨r, h⟩
  obtain ⟨r', h'⟩ := (hl'.mul_ok_iff hr').2 ⟨hleft.compatible hright hcompatible, by
    rwa [hleft.free_eq, hright.free_eq], by rwa [hleft.free_eq, hright.free_eq]⟩
  refine ⟨r', h', hleft.evaluable.mul hright.evaluable h, hleft.evaluable'.mul hright.evaluable' h', ?_, ?_, ?_⟩
  · rw [mul_free h' hl'.nodup hr'.nodup, mul_free h hl.nodup hr.nodup, hleft.free_eq, hright.free_eq]
  · intro i hi
    rw [(mul_used h').2.1, Occurrence.mem_distinct, List.mem_append, List.mem_append, hleft.free_eq,
      hright.free_eq] at hi
    rw [(mul_used h).2.1, Occurrence.mem_distinct, List.mem_append, List.mem_append]
    exact hi.imp_left (Or.imp (hleft.used_sub i) (hright.used_sub i))
  · intro env henv
    obtain ⟨plan, rfl, hplan⟩ := mul_eq_ok h hl.nodup hr.nodup
    obtain ⟨plan', rfl, hplan'⟩ := mul_eq_ok h' hl'.nodup hr'.nodup
    rw [componentAt_product m env hplan hl.toWellFormed hr.toWellFormed,
      componentAt_product m env hplan' hl'.toWellFormed hr'.toWellFormed, hleft.free_eq, hright.free_eq]
    refine sumOver_congr fun values hvalues => ?_
    obtain ⟨hrange, hrange'⟩ := inRange_of_contracts hplan hl.toWellFormed hr.toWellFormed hl.dimension
      hr.dimension henv hvalues
    rw [hleft.componentAt_eq _ hrange, hright.componentAt_eq _ hrange']

theorem scaled (h : Replaces m e e') (op : ScaleOp) (scalar : α) :
    Replaces m (.scaled op e scalar) (.scaled op e' scalar) := by
  refine ⟨h.evaluable.scaled op scalar, h.evaluable'.scaled op scalar, h.free_eq, h.used_sub, ?_⟩
  intro env henv
  rw [componentAt_scaled, componentAt_scaled, h.componentAt_eq env henv]

section Inner
variable (h : Replaces m e e')
include h

theorem bundleInto {indices : List Index} {into : Index} (hr : e.bundleInto indices into = .ok r) :
    ∃ r', e'.bundleInto indices into = .ok r' ∧ Replaces m r r' := by
  obtain ⟨plan, rfl, hr'⟩ := bundleInto_mono h.free_eq h.used_sub hr
  refine ⟨_, hr', h.evaluable.bundleInto hr, h.evaluable'.bundleInto hr', rfl, h.used_sub, ?_⟩
  intro env henv
  obtain ⟨_, ⟨⟩, hplan⟩ := bundleInto_eq_ok hr h.evaluable.nodup
  obtain ⟨_, ⟨⟩, hplan'⟩ := bundleInto_eq_ok hr' h.evaluable'.nodup
  obtain ⟨hrange, heq⟩ := componentAt_bundle_inRange (m := m) hplan h.evaluable.toWellFormed h.evaluable.sized henv
  obtain ⟨-, heq'⟩ := componentAt_bundle_inRange (m := m) hplan' h.evaluable'.toWellFormed h.evaluable'.sized henv
  rw [h.free_eq] at heq'
  rw [heq, heq', h.componentAt_eq _ hrange]

theorem splitInto {index : Index} {into : List Index} (hr : e.splitInto index into = .ok r) :
    ∃ r', e'.splitInto index into = .ok r' ∧ Replaces m r r' := by
  obtain ⟨plan, rfl, hr'⟩ := splitInto_mono h.free_eq h.used_sub hr
  refine ⟨_, hr', h.evaluable.splitInto hr, h.evaluable'.splitInto hr', rfl, h.used_sub, ?_⟩
  intro env henv
  obtain ⟨_, ⟨⟩, hplan⟩ := splitInto_eq_ok hr h.evaluable.nodup
  obtain ⟨_, ⟨⟩, hplan'⟩ := splitInto_eq_ok hr' h.evaluable'.nodup
  obtain ⟨hrange, heq⟩ := componentAt_split_inRange (m := m) hplan h.evaluable.toWellFormed h.evaluable.sized henv
  obtain ⟨-, heq'⟩ := componentAt_split_inRange (m := m) hplan' h.evaluable'.toWellFormed h.evaluable'.sized henv
  rw [heq, heq', h.componentAt_eq _ hrange]

theorem embedInto {index : Index} {into : List Index} {embedding : Embedding}
    (hr : e.embedInto index into embedding = .ok r) :
    ∃ r', e'.embedInto index into embedding = .ok r' ∧ Replaces m r r' := by
  obtain ⟨plan, rfl, hr'⟩ := embedInto_mono h.free_eq h.used_sub hr
  refine ⟨_, hr', h.evaluable.embedInto hr, h.evaluable'.embedInto hr', rfl, h.used_sub, ?_⟩
  intro env henv
  obtain ⟨_, ⟨⟩, hplan⟩ := embedInto_eq_ok hr h.evaluable.nodup
  obtain ⟨_, ⟨⟩, hplan'⟩ := embedInto_eq_ok hr' h.evaluable'.nodup
  rcases componentAt_embed_inRange (m := m) hplan h.evaluable.toWellFormed h.evaluable.sized henv with
    ⟨hzero, heq⟩ | ⟨rank, hne, hrank, hrange, heq⟩
  · rcases componentAt_embed_inRange (m := m) hplan' h.evaluable'.toWellFormed h.evaluable'.sized henv with
      ⟨-, heq'⟩ | ⟨-, hne', -⟩
    · rw [heq, heq']
    · exact absurd hzero hne'
  · rcases componentAt_embed_inRange (m := m) hplan' h.evaluable'.toWellFormed h.evaluable'.sized henv with
      ⟨hzero', -⟩ | ⟨rank', -, hrank', -, heq'⟩
    · exact absurd hzero' hne
    · obtain rfl := Except.ok.inj (hrank.symm.trans hrank')
      rw [heq, heq', h.componentAt_eq _ hrange]

theorem coembedInto {indices : List Index} {into : Index} {kind : PowerKind} {embedding : Embedding}
    (hr : e.coembedInto indices into kind embedding = .ok r) :
    ∃ r', e'.coembedInto indices into kind embedding = .ok r' ∧ Replaces m r r' := by
  obtain ⟨plan, rfl, hr'⟩ := coembedInto_mono h.free_eq h.used_sub hr
  refine ⟨_, hr', h.evaluable.coembedInto hr, h.evaluable'.coembedInto hr', rfl, h.used_sub, ?_⟩
  intro env henv
  obtain ⟨_, ⟨⟩, hplan⟩ := coembedInto_eq_ok hr h.evaluable.nodup
  obtain ⟨_, ⟨⟩, hplan'⟩ := coembedInto_eq_ok hr' h.evaluable'.nodup
  obtain ⟨tuple, htuple, hrange⟩ := inRange_of_merges hplan h.evaluable.toWellFormed h.evaluable.sized henv
  have hfold : (Power.rearrangements tuple).foldlM (fun sum t => do
        let x ← e'.componentAt m (env.extend indices t)
        return if (kind.canonicalize t).1 = 1 then sum + x else sum - x) (0 : α) =
      (Power.rearrangements tuple).foldlM (fun sum t => do
        let x ← e.componentAt m (env.extend indices t)
        return if (kind.canonicalize t).1 = 1 then sum + x else sum - x) 0 :=
    foldlM_congr 0 fun t ht sum => by rw [h.componentAt_eq _ (hrange t ht)]
  rw [componentAt_coembed m env hplan h.evaluable.toWellFormed,
    componentAt_coembed m env hplan' h.evaluable'.toWellFormed, htuple, ok_bind, ok_bind, hfold]

end Inner
end Replaces

/-! ### Constructors around an expression -/

/-- A call of a constructor with one operand left open. -/
inductive Context (α : Type) where
  | sumLeft (op : SumOp) (right : Expr α)
  | sumRight (op : SumOp) (left : Expr α)
  | productLeft (right : Expr α)
  | productRight (left : Expr α)
  | scaled (scalar : α)
  | divided (scalar : α)
  | bundled (indices : List Index) (into : Index)
  | split (index : Index) (into : List Index)
  | embedded (index : Index) (into : List Index) (embedding : Embedding)
  | coembedded (indices : List Index) (into : Index) (kind : PowerKind) (embedding : Embedding)

namespace Context

/-- The call with `e` as the open operand. -/
def fill (c : Context α) (e : Expr α) : Outcome ExprError (Expr α) :=
  match c with
  | .sumLeft op right => liftM (Expr.add op e right)
  | .sumRight op left => liftM (Expr.add op left e)
  | .productLeft right => liftM (Expr.mul e right)
  | .productRight left => liftM (Expr.mul left e)
  | .scaled scalar => .ok (e.scale scalar)
  | .divided scalar => .ok (e.divide scalar)
  | .bundled indices into => e.bundleInto indices into
  | .split index into => liftM (e.splitInto index into)
  | .embedded index into embedding => liftM (e.embedInto index into embedding)
  | .coembedded indices into kind embedding => e.coembedInto indices into kind embedding

/-- The operand that is already there. -/
def operand? : Context α → Option (Expr α)
  | .sumLeft _ o | .sumRight _ o | .productLeft o | .productRight o => some o
  | _ => none

def Ready (m : Memory α) (c : Context α) : Prop := ∀ o ∈ c.operand?, o.Ready m

/-- Calls one after the other, each with the result of the one before as its open operand. -/
def plug (cs : List (Context α)) (e : Expr α) : Outcome ExprError (Expr α) :=
  cs.foldlM (fun e c => c.fill e) e

end Context

namespace Replaces

theorem fill (h : Replaces m e e') {c : Context α} (hc : c.Ready m) (hr : c.fill e = .ok r) :
    ∃ r', c.fill e' = .ok r' ∧ Replaces m r r' := by
  cases c with
  | sumLeft op right =>
    obtain ⟨r', hr', hreplaces⟩ := h.add (.refl (hc right rfl).evaluable) (liftError_eq_ok.1 hr)
    exact ⟨r', liftError_eq_ok.2 hr', hreplaces⟩
  | sumRight op left =>
    obtain ⟨r', hr', hreplaces⟩ := (refl (hc left rfl).evaluable).add h (liftError_eq_ok.1 hr)
    exact ⟨r', liftError_eq_ok.2 hr', hreplaces⟩
  | productLeft right =>
    obtain ⟨r', hr', hreplaces⟩ := h.mul (.refl (hc right rfl).evaluable) (liftError_eq_ok.1 hr)
    exact ⟨r', liftError_eq_ok.2 hr', hreplaces⟩
  | productRight left =>
    obtain ⟨r', hr', hreplaces⟩ := (refl (hc left rfl).evaluable).mul h (liftError_eq_ok.1 hr)
    exact ⟨r', liftError_eq_ok.2 hr', hreplaces⟩
  | scaled scalar =>
    cases hr
    exact ⟨_, rfl, h.scaled .times scalar⟩
  | divided scalar =>
    cases hr
    exact ⟨_, rfl, h.scaled .over scalar⟩
  | bundled indices into => exact h.bundleInto hr
  | split index into =>
    obtain ⟨r', hr', hreplaces⟩ := h.splitInto (liftError_eq_ok.1 hr)
    exact ⟨r', liftError_eq_ok.2 hr', hreplaces⟩
  | embedded index into embedding =>
    obtain ⟨r', hr', hreplaces⟩ := h.embedInto (liftError_eq_ok.1 hr)
    exact ⟨r', liftError_eq_ok.2 hr', hreplaces⟩
  | coembedded indices into kind embedding => exact h.coembedInto hr

theorem plug {cs : List (Context α)} (h : Replaces m e e') (hcs : ∀ c ∈ cs, c.Ready m)
    (hr : Context.plug cs e = .ok r) : ∃ r', Context.plug cs e' = .ok r' ∧ Replaces m r r' := by
  induction cs generalizing e e' with
  | nil =>
    cases hr
    exact ⟨e', rfl, h⟩
  | cons c cs ih =>
    obtain ⟨f, hf, hr⟩ := bind_eq_ok.1 hr
    obtain ⟨f', hf', hreplaces⟩ := h.fill (hcs c (by simp)) hf
    obtain ⟨r', hr', hreplaces'⟩ := ih hreplaces (fun d hd => hcs d (by simp [hd])) hr
    exact ⟨r', bind_eq_ok.2 ⟨f', hf', hr'⟩, hreplaces'⟩

/-- A target takes the same from the replacement as from the expression itself. -/
theorem source_eq (h : Replaces m e e') {t : Target} (hnodup : (symbols t.free).Nodup)
    (hdims : ∀ b ∈ t.free, b.factor.dimension = .ok b.dim) {permutation : List Nat}
    (hmatch : matchFree t.free e.free = .ok permutation) {values : List Nat}
    (hvalues : Box.InBox values t.dims) :
    ∃ x, Target.source e permutation m values = .ok x ∧ Target.source e' permutation m values = .ok x := by
  have hplan : (⟨permutation, []⟩ : SumPlan).Matches t.free e.free := matchFree_eq_ok hmatch
  have hplan' : (⟨permutation, []⟩ : SumPlan).Matches t.free e'.free := h.free_eq ▸ hplan
  obtain ⟨env, rfl, henv⟩ := exists_inRange hnodup hvalues
  have henv' : InRange e.free env :=
    (hplan.inRange_iff hnodup h.evaluable.nodup hdims h.evaluable.dimension).1 henv
  obtain ⟨x, hx⟩ := h.evaluable.total env henv'
  refine ⟨x, (Target.source_eq hplan h.evaluable.toWellFormed env).trans hx, ?_⟩
  exact (Target.source_eq hplan' h.evaluable'.toWellFormed env).trans ((h.componentAt_eq env henv').trans hx)

end Replaces

/-! ### The array of components -/

theorem Evaluable.replaces_evaluated {s s' : Session α} (he : Evaluable s.memory e)
    (h : e.eval s = .ok e' s') (hm : s.memory.Within m) : Replaces m e e' := by
  have he' := he.evaluated h m
  obtain ⟨-, count, xs, hcount, hxs, rfl, -⟩ := eval_eq_ok.1 h
  refine ⟨he.within hm, he', rfl, nofun, fun env henv => ?_⟩
  rw [componentAt, componentAt, he.stable m hm]
  exact component_evaluated hcount hxs (inBox_iff_inRange.2 henv)

/-- The components of an expression can be worked out if their number fits, and the expression they make
up stands for the first one wherever that is accepted, from then on and whatever new cells there are. -/
theorem eval_transparent {s : Session α} (he : Ready s.memory e)
    (hfit : ∀ n, Box.size ((e.free.map BoundIndex.dim).take n) < Count.limit) :
    ∃ e' xs s', e.eval s = .ok e' s' ∧ s'.memory = (s.memory.own xs).1 ∧
      e' = .evaluated e.free (s.memory.own xs).2 ∧ e'.free = e.free ∧ e'.used = [] ∧
      (Box.multiIndices (e.free.map BoundIndex.dim)).mapM (e.component s.memory) = .ok xs.toList ∧
      (∃ last, (Odometer.first (e.free.map BoundIndex.dim)).walk = .ok (List.range xs.size, last)) ∧
      (∀ m values, Box.InBox values (e.free.map BoundIndex.dim) →
        ∃ x, e.component s.memory values = .ok x ∧ e'.component m values = .ok x) ∧
      (∀ m, s.memory.Within m → ∀ cs r, (∀ c ∈ cs, Context.Ready m c) → Context.plug cs e = .ok r →
        ∃ r', Context.plug cs e' = .ok r' ∧ r'.free = r.free ∧
          ∀ values, Box.InBox values (r.free.map BoundIndex.dim) →
            ∃ x, r.component m values = .ok x ∧ r'.component m values = .ok x) ∧
      ∀ region written factors unchecked t permutation,
        Target.of region written factors unchecked = .ok t → matchFree t.free e.free = .ok permutation →
        matchFree t.free e'.free = .ok permutation ∧
        (region.start + region.count ≤ s.memory.cells.size →
          e'.overlaps s'.memory (s'.memory.regionRange t.region) = false) ∧
        ∀ m, s.memory.Within m → ∀ values, Box.InBox values t.dims →
          ∃ x, Target.source e permutation m values = .ok x ∧ Target.source e' permutation m values = .ok x := by
  have hcount := Count.product_ok hfit
  have he := he.evaluable
  obtain ⟨xs, s', hxs, heval, hmemory⟩ := Expr.eval_ok he.toWellFormed hcount he.total
  have hreplaces := fun m (hm : s.memory.Within m) => he.replaces_evaluated heval hm
  refine ⟨_, xs, s', heval, hmemory, rfl, rfl, rfl, (components_eq_ok hcount).1 hxs, ?_, ?_, ?_, ?_⟩
  · rw [size_of_components hcount hxs]
    exact Odometer.walk_first hcount
  · intro m values hvalues
    obtain ⟨x, hx, -⟩ := (hreplaces _ (.refl _)).component_eq hvalues
    exact ⟨x, hx, (component_evaluated hcount hxs hvalues).trans hx⟩
  · intro m hm cs r hcs hr
    obtain ⟨r', hr', hreplaces'⟩ := (hreplaces m hm).plug hcs hr
    exact ⟨r', hr', hreplaces'.free_eq, fun values => hreplaces'.component_eq⟩
  · intro region written factors unchecked t permutation ht hmatch
    obtain ⟨rfl, -, hnodup, hdims⟩ := Target.of_eq_ok ht
    refine ⟨hmatch, fun hregion => ?_, fun m hm values => (hreplaces m hm).source_eq hnodup hdims hmatch⟩
    rw [hmemory]
    exact Memory.overlaps_own hregion xs

end Replace

/-- A matrix applied to a vector is worked out, and subtracted from another vector: the summed index is
gone, and it makes no difference. -/
theorem eval_transparent_residual :
    ∃ (e r : Expr (Binary .double)) (s : Session (Binary .double)) (cs : List (Context (Binary .double))),
      Ready s.memory e ∧ (∀ n, Box.size ((e.free.map BoundIndex.dim).take n) < Count.limit) ∧
      (∀ c ∈ cs, c.Ready s.memory) ∧ e.used = [.ofChar 'j'] ∧ Context.plug cs e = .ok r ∧
      ∃ e' s' r', e.eval s = .ok e' s' ∧ e'.used = [] ∧ Context.plug cs e' = .ok r' ∧ r'.free = r.free ∧
        ∃ x, r.component s'.memory [1] = .ok x ∧ r'.component s'.memory [1] = .ok x := by
  let space := Concept.realSpace 2
  have hspace := Concept.based_realSpace 2
  let s : Session (Binary .double) := ⟨⟨8, ((List.range 8).map fun k => .ofInt k).toArray⟩, []⟩
  let a : {a : Expr (Binary .double) // Expr.indexed (.readOnly ⟨0, 4, true⟩) [.ofChar 'i', .ofChar 'j']
    [space, space.dual] = .ok a} := ⟨_, rfl⟩
  let x : {x : Expr (Binary .double) // Expr.indexed (.readOnly ⟨4, 2, true⟩) [.ofChar 'j'] [space] = .ok x} :=
    ⟨_, rfl⟩
  let y : {y : Expr (Binary .double) // Expr.indexed (.readOnly ⟨6, 2, true⟩) [.ofChar 'i'] [space] = .ok y} :=
    ⟨_, rfl⟩
  let e : {e // a.1.mul x.1 = .ok e} := ⟨_, rfl⟩
  let r : {r // Context.plug [.sumRight .minus y.1] e.1 = .ok r} := ⟨_, rfl⟩
  have hfills : ∀ start, start + 2 ≤ 8 →
      (Storage.readOnly ⟨start, 2, true⟩ : Storage (Binary .double)).Fills s.memory [space] := by
    intro start hstart
    exact ⟨by simpa [Storage.Valid, s] using hstart, by simpa using hspace, rfl, show 2 < Count.limit by decide⟩
  have ha : (Storage.readOnly ⟨0, 4, true⟩ : Storage (Binary .double)).Fills s.memory [space, space.dual] :=
    ⟨by simp [Storage.Valid, s], by simpa using ⟨hspace, hspace.dual⟩, rfl, by decide⟩
  have he : Ready s.memory e.1 :=
    ⟨.product (.indexed _ _ _ a.2) (.indexed _ _ _ x.2) e.2, ha, hfills 4 (by decide)⟩
  have hy : Ready s.memory y.1 := ⟨.indexed _ _ _ y.2, hfills 6 (by decide)⟩
  have hcs : ∀ m, s.memory.Within m → ∀ c ∈ [Context.sumRight .minus y.1], c.Ready m := by
    intro m hm c hc o ho
    obtain rfl := List.mem_singleton.1 hc
    obtain rfl := Option.some.inj ho
    exact hy.within hm
  have hfit : ∀ n, Box.size ((e.1.free.map BoundIndex.dim).take n) < Count.limit := by
    intro n
    show Box.size (List.take n [2]) < Count.limit
    cases n with
    | zero => decide
    | succ n =>
      rw [List.take_of_length_le (by simp)]
      decide
  obtain ⟨e', xs, s', heval, hmemory, -, -, hused, -, -, -, hplug, -⟩ := eval_transparent he hfit
  have hm : s.memory.Within s'.memory := hmemory ▸ Memory.within_own s.memory xs
  obtain ⟨r', hr', hfree, hcomponent⟩ := hplug _ hm _ r.1 (hcs _ hm) r.2
  exact ⟨e.1, r.1, s, _, he, hfit, hcs _ (.refl _), rfl, r.2, e', s', r', heval, hused, hr', hfree,
    hcomponent [1] (.cons (by decide) .nil)⟩

end Expr
end TensorCalculus
