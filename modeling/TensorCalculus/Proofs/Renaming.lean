import Mathlib.Data.Fintype.Sum
import TensorCalculus.Expr.Rename
import TensorCalculus.Proofs.Relabel
import TensorCalculus.Proofs.Used

/-!
# Renaming is relabelling

No two symbols have the same image under a renaming (`Renaming.Proper.image?_inj`). There are only finitely many
symbols, so a renaming is part of an injective map of all symbols (`Renaming.Proper.exists_injective`). A
consistent tree is renamed to its relabelling by such a map, unless a symbol has no image; then this is
the error (`Expr.Consistent.renames`).
-/

namespace TensorCalculus

/-! ### Offsets -/

theorem Index.offset?_eq_some {i j : Index} {offset : UInt32} :
    i.offset? offset = some j ↔ j.symbol.toNat = i.symbol.toNat + offset.toNat := by
  have hlt := j.symbol.toNat_lt
  unfold Index.offset?
  constructor
  · intro h
    split at h
    · next hfits =>
      cases h
      rw [UInt32.toNat_add, Nat.mod_eq_of_lt hfits]
    · cases h
  · intro h
    rw [if_pos (by rw [← h]; exact hlt)]
    congr 1
    rcases j with ⟨j⟩
    congr 1
    rw [← UInt32.toNat_inj, UInt32.toNat_add, ← h]
    exact Nat.mod_eq_of_lt hlt

namespace IndexList

theorem le_foldl_largerSymbol (is : List Index) (s : UInt32) :
    s.toNat ≤ (is.foldl (fun s j => largerSymbol s j.symbol) s).toNat ∧
      ∀ i ∈ is, i.symbol.toNat ≤ (is.foldl (fun s j => largerSymbol s j.symbol) s).toNat := by
  induction is generalizing s with
  | nil => simp
  | cons j is ih =>
    obtain ⟨hstart, hall⟩ := ih (largerSymbol s j.symbol)
    have hlarger : s.toNat ≤ (largerSymbol s j.symbol).toNat ∧
        j.symbol.toNat ≤ (largerSymbol s j.symbol).toNat := by
      unfold largerSymbol
      split <;> omega
    rw [List.foldl_cons, List.forall_mem_cons]
    exact ⟨hlarger.1.trans hstart, hlarger.2.trans hstart, hall⟩

theorem le_maxSymbol? {is : List Index} {largest : UInt32} (h : maxSymbol? is = some largest) :
    ∀ i ∈ is, i.symbol.toNat ≤ largest.toNat := by
  match is, h with
  | j :: is, h =>
    cases h
    rw [List.forall_mem_cons]
    exact le_foldl_largerSymbol is j.symbol

end IndexList

namespace Renaming
variable {r : Renaming} {domain codomain : List Index} {i j k : Index}

theorem lt_of_offsetPast {offset : UInt32} (h : offsetPast codomain = some offset) :
    ∀ i ∈ codomain, i.symbol.toNat < offset.toNat := by
  intro i hi
  unfold offsetPast at h
  split at h
  · next hnone =>
    match codomain, hnone with
    | [], _ => cases hi
  · next largest hlargest =>
    obtain ⟨past, hpast, rfl⟩ := Option.map_eq_some_iff.1 h
    rw [Index.offset?_eq_some.1 hpast]
    exact Nat.lt_succ_of_le (IndexList.le_maxSymbol? hlargest i hi)

/-! ### Images are different -/

theorem checkDistinct_eq_ok {is : List Index} : checkDistinct is = .ok () ↔ is.Nodup := by
  rw [← Occurrence.firstRepeated?_eq_none, checkDistinct]
  split <;> simp_all

/-- The renaming sends different symbols to different ones, and what it moves goes past all of these. -/
structure Proper (r : Renaming) : Prop where
  length_eq : r.domain.length = r.codomain.length
  nodup_domain : r.domain.Nodup
  nodup_codomain : r.codomain.Nodup
  offset_eq : r.offset = offsetPast r.codomain

theorem proper_of (h : of domain codomain = .ok r) : r.Proper := by
  unfold of at h
  split at h
  · cases h
  next hlength =>
  obtain ⟨⟨⟩, hdomain, h⟩ := bind_eq_ok.1 h
  obtain ⟨⟨⟩, hcodomain, h⟩ := bind_eq_ok.1 h
  cases h
  exact ⟨not_not.1 hlength, checkDistinct_eq_ok.1 hdomain, checkDistinct_eq_ok.1 hcodomain, rfl⟩

theorem image?_eq_some (h : r.image? i = some j) : r.isIdentity = true ∧ i = j ∨ r.isIdentity = false ∧
    ((∃ k : Nat, r.domain[k]? = some i ∧ r.codomain[k]? = some j) ∨
      ∃ offset, r.offset = some offset ∧ j.symbol.toNat = i.symbol.toNat + offset.toNat) := by
  unfold image? at h
  split at h
  · next hid =>
    cases h
    exact .inl ⟨hid, rfl⟩
  next hid =>
  refine .inr ⟨by simpa using hid, ?_⟩
  split at h
  · next k hk =>
    obtain ⟨hlt, heq, -⟩ := List.findIdx?_eq_some_iff_getElem.1 hk
    exact .inl ⟨k, by rw [List.getElem?_eq_getElem hlt, eq_of_beq heq], h⟩
  · obtain ⟨offset, hoffset, h⟩ := Option.bind_eq_some_iff.1 h
    exact .inr ⟨offset, hoffset, Index.offset?_eq_some.1 h⟩

theorem Proper.image?_inj (hr : r.Proper) (hi : r.image? i = some k) (hj : r.image? j = some k) : i = j := by
  have hpast : ∀ offset, r.offset = some offset → ∀ a ∈ r.codomain, a.symbol.toNat < offset.toNat :=
    fun offset h => lt_of_offsetPast (hr.offset_eq ▸ h)
  rcases image?_eq_some hi with ⟨hid, rfl⟩ | ⟨hid, hi⟩
  · rcases image?_eq_some hj with ⟨-, rfl⟩ | ⟨hid', -⟩
    · rfl
    · rw [hid] at hid'
      cases hid'
  rcases image?_eq_some hj with ⟨hid', -⟩ | ⟨-, hj⟩
  · rw [hid] at hid'
    cases hid'
  -- a symbol that is moved and one that is named cannot meet: the moved one is past the codomain
  rcases hi with ⟨p, hp, hpk⟩ | ⟨offset, hoffset, hi⟩
  · rcases hj with ⟨q, hq, hqk⟩ | ⟨offset, hoffset, hj⟩
    · have hlt := (List.getElem?_eq_some_iff.1 hpk).1
      obtain rfl := (List.getElem?_inj hlt hr.nodup_codomain).1 (hpk.trans hqk.symm)
      exact Option.some.inj (hp.symm.trans hq)
    · have := hpast offset hoffset k (List.mem_of_getElem? hpk)
      omega
  · rcases hj with ⟨q, hq, hqk⟩ | ⟨offset', hoffset', hj⟩
    · have := hpast offset hoffset k (List.mem_of_getElem? hqk)
      omega
    · obtain rfl := Option.some.inj (hoffset.symm.trans hoffset')
      have hsymbol : i.symbol = j.symbol := UInt32.toNat_inj.1 (by omega)
      rcases i with ⟨i⟩
      rcases j with ⟨j⟩
      exact congrArg Index.mk hsymbol

instance : Finite Index := by
  refine Finite.of_injective (fun i : Index => i.symbol.toFin) ?_
  rintro ⟨i⟩ ⟨j⟩ h
  exact congrArg Index.mk (UInt32.toFin_inj.1 h)

/-- Symbols without an image can be sent to those that are no image, since there are as many. -/
theorem Proper.exists_injective (hr : r.Proper) :
    ∃ ρ : Index → Index, ρ.Injective ∧ ∀ i j, r.image? i = some j → ρ i = j := by
  have : Fintype Index := Fintype.ofFinite Index
  have hinj : Set.InjOn (fun i => (r.image? i).getD i) {i | (r.image? i).isSome} := by
    intro i hi j hj hij
    obtain ⟨a, ha⟩ := Option.isSome_iff_exists.1 hi
    obtain ⟨b, hb⟩ := Option.isSome_iff_exists.1 hj
    simp only [ha, hb, Option.getD_some] at hij
    exact hr.image?_inj ha (hij ▸ hb)
  obtain ⟨g, hg⟩ := Set.MapsTo.exists_equiv_extend_of_card_eq (t := Finset.univ) rfl
    (fun i _ => Finset.mem_coe.2 (Finset.mem_univ _)) hinj
  refine ⟨fun i => g i, Subtype.val_injective.comp g.injective, fun i j hij => ?_⟩
  have := hg i (Option.isSome_iff_exists.2 ⟨j, hij⟩)
  rwa [hij] at this

/-! ### Renamed lists -/

/-- The symbols `is` were renamed and `b` came out, or one of them has no image and this is the error. -/
def Renames (r : Renaming) (is : List Index) {β : Type} (x : Except ExprError β) (b : β) : Prop :=
  (∀ i ∈ is, ∃ j, r.image? i = some j) ∧ x = .ok b ∨
    ∃ i ∈ is, r.image? i = none ∧ x = .error (.symbolOverflow i)

section Renames
variable {β γ : Type} {is js : List Index} {x : Except ExprError β} {f : β → Except ExprError γ} {b : β} {c : γ}

theorem Renames.of_ok (h : x = .ok b) : r.Renames [] x b := .inl ⟨by simp, h⟩

theorem Renames.bind (hx : r.Renames is x b) (hf : r.Renames js (f b) c) :
    r.Renames (is ++ js) (x >>= f) c := by
  rcases hx with ⟨hdefined, rfl⟩ | ⟨i, hi, hnone, rfl⟩
  · rcases hf with ⟨hdefined', hf⟩ | ⟨i, hi, hnone, hf⟩
    · refine .inl ⟨fun i hi => ?_, hf⟩
      rcases List.mem_append.1 hi with hi | hi
      · exact hdefined i hi
      · exact hdefined' i hi
    · exact .inr ⟨i, List.mem_append_right _ hi, hnone, hf⟩
  · exact .inr ⟨i, List.mem_append_left _ hi, hnone, rfl⟩

/-- The last step of a block cannot stop. -/
theorem Renames.map (hx : r.Renames is x b) (hf : f b = .ok c) : r.Renames is (x >>= f) c := by
  have := hx.bind (Renames.of_ok hf)
  rwa [List.append_nil] at this

theorem Renames.congr (hx : r.Renames is x b) (h : ∀ i, i ∈ is ↔ i ∈ js) : r.Renames js x b := by
  rcases hx with ⟨hdefined, hx⟩ | ⟨i, hi, hnone, hx⟩
  · exact .inl ⟨fun i hi => hdefined i ((h i).2 hi), hx⟩
  · exact .inr ⟨i, (h i).1 hi, hnone, hx⟩

/-- A loop that renames one symbol in each step. -/
theorem renames_mapM {g : β → γ} (symbol : β → Index) (h : ∀ b, r.Renames [symbol b] (f b) (g b))
    (bs : List β) : r.Renames (bs.map symbol) (bs.mapM f) (bs.map g) := by
  induction bs with
  | nil => exact .of_ok rfl
  | cons b bs ih =>
    rw [List.mapM_cons]
    exact (h b).bind (ih.map rfl)

variable {ρ : Index → Index} (hρ : ∀ i j, r.image? i = some j → ρ i = j)
include hρ

theorem renames_rename (i : Index) : r.Renames [i] (r.rename i) (ρ i) := by
  unfold rename
  cases hi : r.image? i with
  | none => exact .inr ⟨i, by simp, hi, rfl⟩
  | some j => exact .inl ⟨by simp [hi], by rw [hρ i j hi]⟩

theorem renames_renameBound (b : BoundIndex) :
    r.Renames [b.index] (r.renameBound b) (b.relabel ρ) := (renames_rename hρ b.index).map rfl

theorem renames_renameList (is : List Index) : r.Renames is (r.renameList is) (is.map ρ) := by
  have := renames_mapM id (renames_rename hρ) is
  rwa [List.map_id] at this

theorem renames_renameFree (free : List BoundIndex) :
    r.Renames (symbols free) (r.renameFree free) (free.map (BoundIndex.relabel ρ)) :=
  renames_mapM BoundIndex.index (renames_renameBound hρ) free

end Renames

end Renaming

/-! ### Renamed trees -/

section Tree
variable {α : Type} {r : Renaming} {ρ : Index → Index} (hρ : ∀ i j, r.image? i = some j → ρ i = j)
include hρ

theorem Leaf.renames (l : Leaf α) :
    r.Renames (l.written ++ (symbols l.free ++ l.used)) (l.renamed r) (l.relabel ρ) :=
  (Renaming.renames_renameList hρ l.written).bind
    ((Renaming.renames_renameFree hρ l.free).bind ((Renaming.renames_renameList hρ l.used).map rfl))

/-- The new sums and products are accepted, since they are relabelled ones. -/
theorem Expr.Consistent.renames (hinj : ρ.Injective) {e : Expr α} (he : e.Consistent) :
    r.Renames e.mentioned (e.renamed r) (e.relabel ρ) := by
  induction e with
  | leaf plan => exact (plan.renames hρ).map rfl
  | evaluated free array => exact (Renaming.renames_renameFree hρ free).map rfl
  | sum op left right plan ihl ihr =>
    obtain ⟨hleft, hright, hadd⟩ := he
    have hused : plan.used = Occurrence.distinct (left.used ++ right.used) := (add_used hadd).2
    -- what the sum itself uses was used in an operand
    refine ((ihl hleft).bind ((ihr hright).map (add_relabel hinj hadd))).congr fun i => ?_
    simp only [mentioned, List.mem_append, hused, Occurrence.mem_distinct]
    constructor
    · exact .inl
    · rintro (hi | hi | hi)
      · exact hi
      · exact .inl (mentioned_of_used hi)
      · exact .inr (mentioned_of_used hi)
  | scaled op inner scalar ih => exact (ih he).map rfl
  | product left right plan ihl ihr =>
    obtain ⟨hleft, hright, hmul⟩ := he
    obtain ⟨-, hused, hfree⟩ := mul_used hmul
    have hused : plan.used = _ := hused
    refine ((ihl hleft).bind ((ihr hright).map (mul_relabel hinj hmul))).congr fun i => ?_
    simp only [mentioned, List.mem_append, hused, Occurrence.mem_distinct, Occurrence.mem_common]
    constructor
    · exact .inl
    · rintro (hi | hi | (hi | hi) | hi)
      · exact hi
      · obtain ⟨b, hb, rfl⟩ := mem_symbols.1 hi
        rcases hfree b hb with hb | hb
        · exact .inl (mentioned_of_free (index_mem_symbols hb))
        · exact .inr (mentioned_of_free (index_mem_symbols hb))
      · exact .inl (mentioned_of_used hi)
      · exact .inr (mentioned_of_used hi)
      · exact .inl (mentioned_of_free hi.1)
  | bundle inner plan ih | split inner plan ih | embed inner plan ih | coembed inner plan ih =>
    exact (Renaming.renames_renameFree hρ plan.free).bind ((ih he).map rfl)

end Tree

end TensorCalculus
