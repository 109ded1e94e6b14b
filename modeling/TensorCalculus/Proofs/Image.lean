import Mathlib.Order.Bounds.Basic
import TensorCalculus.Proofs.Renaming

/-!
# Where a renaming sends a symbol

A renaming is made from two lists of the same length without repetition (`Renaming.of_ok_iff`). It sends the
symbols of the first list to those of the second (`Renaming.Proper.image?_of_getElem?`) and moves every other
one up by the largest symbol of the second list and one more, as long as that is a symbol
(`Renaming.Proper.image?_moved`).
-/

namespace TensorCalculus

/-! ### The largest symbol -/

namespace IndexList

theorem mem_foldl_largerSymbol (is : List Index) (s : UInt32) :
    is.foldl (fun s j => largerSymbol s j.symbol) s = s ∨
      ∃ i ∈ is, i.symbol = is.foldl (fun s j => largerSymbol s j.symbol) s := by
  induction is generalizing s with
  | nil => exact .inl rfl
  | cons j is ih =>
    rw [List.foldl_cons]
    rcases ih (largerSymbol s j.symbol) with h | ⟨i, hi, h⟩
    · have hlarger : largerSymbol s j.symbol = s ∨ largerSymbol s j.symbol = j.symbol := by
        unfold largerSymbol
        split
        · exact .inr rfl
        · exact .inl rfl
      rcases hlarger with hs | hj
      · exact .inl (h.trans hs)
      · exact .inr ⟨j, by simp, (h.trans hj).symm⟩
    · exact .inr ⟨i, by simp [hi], h⟩

theorem isGreatest_maxSymbol? {is : List Index} {largest : UInt32} (h : maxSymbol? is = some largest) :
    IsGreatest {n | ∃ i ∈ is, i.symbol.toNat = n} largest.toNat := by
  constructor
  · cases is with
    | nil => cases h
    | cons j is =>
      cases h
      rcases mem_foldl_largerSymbol is j.symbol with hj | ⟨i, hi, hlargest⟩
      · exact ⟨j, by simp, by rw [hj]⟩
      · exact ⟨i, by simp [hi], by rw [hlargest]⟩
  · rintro n ⟨i, hi, rfl⟩
    exact le_maxSymbol? h i hi

theorem maxSymbol?_of_ne_nil {is : List Index} (h : is ≠ []) : ∃ largest, maxSymbol? is = some largest := by
  obtain ⟨i, is, rfl⟩ := List.exists_cons_of_ne_nil h
  exact ⟨_, rfl⟩

end IndexList

theorem Index.exists_symbol_iff {n : Nat} : (∃ i : Index, i.symbol.toNat = n) ↔ n < UInt32.size := by
  constructor
  · rintro ⟨i, rfl⟩
    exact i.symbol.toNat_lt
  · intro h
    exact ⟨⟨UInt32.ofNat n⟩, UInt32.toNat_ofNat_of_lt' h⟩

namespace Renaming
variable {r : Renaming} {domain codomain : List Index} {i j : Index}

/-! ### Which renamings there are -/

theorem lists_of (h : of domain codomain = .ok r) : r.domain = domain ∧ r.codomain = codomain := by
  unfold of at h
  split at h
  · cases h
  obtain ⟨⟨⟩, -, h⟩ := bind_eq_ok.1 h
  obtain ⟨⟨⟩, -, h⟩ := bind_eq_ok.1 h
  cases h
  exact ⟨rfl, rfl⟩

theorem of_ok_iff : (∃ r, of domain codomain = .ok r) ↔
    domain.length = codomain.length ∧ domain.Nodup ∧ codomain.Nodup := by
  constructor
  · rintro ⟨r, h⟩
    obtain ⟨rfl, rfl⟩ := lists_of h
    have hr := proper_of h
    exact ⟨hr.length_eq, hr.nodup_domain, hr.nodup_codomain⟩
  · rintro ⟨hlength, hdomain, hcodomain⟩
    unfold of
    rw [if_neg (not_not.2 hlength)]
    exact exists_bind_ok (checkDistinct_eq_ok.2 hdomain)
      (exists_bind_ok (checkDistinct_eq_ok.2 hcodomain) ⟨_, rfl⟩)

/-! ### Images -/

theorem isIdentity_iff : r.isIdentity = true ↔ r.domain = r.codomain := beq_iff_eq

theorem image?_of_identity (h : r.domain = r.codomain) (i : Index) : r.image? i = some i :=
  if_pos (isIdentity_iff.2 h)

theorem Proper.image?_of_getElem? (hr : r.Proper) {k : Nat} (hi : r.domain[k]? = some i) :
    r.image? i = r.codomain[k]? := by
  by_cases hid : r.domain = r.codomain
  · rw [image?_of_identity hid, ← hid, hi]
  obtain ⟨hlt, rfl⟩ := List.getElem?_eq_some_iff.1 hi
  have hposition : IndexList.position? r.domain r.domain[k] = some k := by
    refine List.findIdx?_eq_some_iff_getElem.2 ⟨hlt, beq_self_eq_true _, fun q hq => ?_⟩
    rw [beq_iff_eq, hr.nodup_domain.getElem_inj_iff]
    omega
  rw [image?, if_neg (mt isIdentity_iff.1 hid), hposition]

theorem image?_of_not_mem (hid : r.domain ≠ r.codomain) (hi : i ∉ r.domain) :
    r.image? i = r.offset.bind i.offset? := by
  have hposition : IndexList.position? r.domain i = none := by
    refine List.findIdx?_eq_none_iff.2 fun a ha => ?_
    rw [beq_eq_false_iff_ne]
    rintro rfl
    exact hi ha
  rw [image?, if_neg (mt isIdentity_iff.1 hid), hposition]

theorem offsetPast_eq_some {largest offset : UInt32} (h : IndexList.maxSymbol? codomain = some largest) :
    offsetPast codomain = some offset ↔ offset.toNat = largest.toNat + 1 := by
  unfold offsetPast
  rw [h]
  dsimp only
  rw [Option.map_eq_some_iff]
  constructor
  · rintro ⟨past, hpast, rfl⟩
    exact Index.offset?_eq_some.1 hpast
  · intro hoffset
    exact ⟨⟨offset⟩, Index.offset?_eq_some.2 hoffset, rfl⟩

/-- A symbol that is not in the domain moves past the codomain. -/
theorem Proper.image?_moved (hr : r.Proper) (hid : r.domain ≠ r.codomain) (hi : i ∉ r.domain)
    {largest : UInt32} (h : IndexList.maxSymbol? r.codomain = some largest) :
    r.image? i = some j ↔ j.symbol.toNat = i.symbol.toNat + largest.toNat + 1 := by
  rw [image?_of_not_mem hid hi, hr.offset_eq, Option.bind_eq_some_iff]
  simp only [offsetPast_eq_some h, Index.offset?_eq_some]
  constructor
  · rintro ⟨offset, hoffset, hj⟩
    omega
  · intro hj
    have hlt : j.symbol.toNat < UInt32.size := j.symbol.toNat_lt
    obtain ⟨past, hpast⟩ := Index.exists_symbol_iff.2 (show largest.toNat + 1 < UInt32.size by omega)
    exact ⟨past.symbol, hpast, by omega⟩

theorem Proper.image?_eq_none (hr : r.Proper) (hid : r.domain ≠ r.codomain) (hi : i ∉ r.domain)
    {largest : UInt32} (h : IndexList.maxSymbol? r.codomain = some largest) :
    r.image? i = none ↔ UInt32.size ≤ i.symbol.toNat + largest.toNat + 1 := by
  rw [Option.eq_none_iff_forall_ne_some, ← Nat.not_lt, ← Index.exists_symbol_iff, not_exists]
  exact forall_congr' fun j => not_congr (hr.image?_moved hid hi h)

/-- A renaming is made from lists of the same length without repetition. No two symbols have the same image. A
symbol of the domain goes to the one at its place in the codomain, and unless the lists are the same, every
other symbol goes past the codomain or, if that leaves the symbol space, nowhere. -/
theorem renames_injectively (domain codomain : List Index) :
    ((∃ r, of domain codomain = .ok r) ↔
      domain.length = codomain.length ∧ domain.Nodup ∧ codomain.Nodup) ∧
    ∀ r, of domain codomain = .ok r →
      (∀ i j i' j', i ≠ j → r.image? i = some i' → r.image? j = some j' → i' ≠ j') ∧
      (∀ (k : Nat) (i j : Index), domain[k]? = some i → codomain[k]? = some j → r.image? i = some j) ∧
      (domain ≠ codomain →
        ∃ largest, IsGreatest {n | ∃ c ∈ codomain, c.symbol.toNat = n} largest ∧ ∀ i ∉ domain,
          (r.image? i = none ↔ UInt32.size ≤ i.symbol.toNat + largest + 1) ∧
          ∀ j, r.image? i = some j → j.symbol.toNat = i.symbol.toNat + largest + 1 ∧
            ∀ c ∈ codomain, c.symbol.toNat < j.symbol.toNat) ∧
      (domain = codomain → ∀ i, r.image? i = some i) := by
  refine ⟨of_ok_iff, fun r h => ?_⟩
  have hr := proper_of h
  obtain ⟨rfl, rfl⟩ := lists_of h
  refine ⟨?_, fun k i j hi hj => (hr.image?_of_getElem? hi).trans hj, fun hid => ?_, image?_of_identity⟩
  · rintro i j i' _ hne hi hj rfl
    exact hne (hr.image?_inj hi hj)
  · have hnil : r.codomain ≠ [] := by
      intro hnil
      have hlength := hr.length_eq
      rw [hnil, List.length_nil, List.length_eq_zero_iff] at hlength
      exact hid (hlength.trans hnil.symm)
    obtain ⟨largest, hlargest⟩ := IndexList.maxSymbol?_of_ne_nil hnil
    have hgreatest := IndexList.isGreatest_maxSymbol? hlargest
    refine ⟨largest.toNat, hgreatest, fun i hi => ⟨hr.image?_eq_none hid hi hlargest, fun j hj => ?_⟩⟩
    have hmoved := (hr.image?_moved hid hi hlargest).1 hj
    refine ⟨hmoved, fun c hc => ?_⟩
    have hle : c.symbol.toNat ≤ largest.toNat := hgreatest.2 ⟨c, hc, rfl⟩
    omega

/-- The codomain of a shift has a symbol of the domain and one that is not. The one behind them moves past both,
and the last symbol of all has no image. -/
theorem renames_injectively_shift :
    let domain := IndexList.ofString "ij"
    let codomain := IndexList.ofString "jk"
    ∃ r, of domain codomain = .ok r ∧ domain ≠ codomain ∧ domain.Nodup ∧
      r.image? (.ofChar 'i') = some (.ofChar 'j') ∧ r.image? (.ofChar 'j') = some (.ofChar 'k') ∧
      (∀ j, r.image? (.ofChar 'l') = some j → j ≠ .ofChar 'k') ∧ r.image? ⟨4294967295⟩ = none := by
  intro domain codomain
  obtain ⟨haccepts, hlaws⟩ := renames_injectively domain codomain
  have hne : domain ≠ codomain := by decide
  have hnodup : domain.Nodup := by decide
  obtain ⟨r, h⟩ := haccepts.2 ⟨rfl, hnodup, by decide⟩
  obtain ⟨hinjective, hnamed, hmoved, -⟩ := hlaws r h
  obtain ⟨largest, -, hmoved⟩ := hmoved hne
  have hk : r.image? (.ofChar 'j') = some (.ofChar 'k') := hnamed 1 _ _ rfl rfl
  refine ⟨r, h, hne, hnodup, hnamed 0 _ _ rfl rfl, hk, fun j hj => ?_, ?_⟩
  · exact hinjective _ _ _ _ (by decide) hj hk
  · refine (hmoved ⟨4294967295⟩ (by decide)).1.2 ?_
    show 4294967296 ≤ 4294967295 + largest + 1
    omega

end Renaming

end TensorCalculus
