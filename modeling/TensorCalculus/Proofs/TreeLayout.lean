import TensorCalculus.Proofs.Bracketed

/-!
# The layout as a tree

`Forest.tree` is the layout of a text whose groups are all shown, read off the text as a tree. It is the
text of `Forest.arranged` (`text_arranged`), and no line of it is indented deeper than groups are nested
(`deepest_le`). Blanks around a text do not matter (`trim_append`). So whatever is not collapsed is laid out
as a tree (`layout_eq_tree`).
-/

namespace TensorCalculus.Layout

/-! ### Trees of text -/

namespace Forest
variable {f : Forest} {indent depth collapse : Nat}

/-- The layout at a depth when nothing is collapsed. Characters are copied, and behind a comma the line is
broken and blanks are dropped. A group that is not empty has lines of its own, one level deeper. -/
def tree (indent depth : Nat) : Forest → List Char
  | nil => []
  | char c rest =>
    if c = ',' then c :: (line indent depth ++ (rest.tree indent depth).dropWhile isBlank)
    else c :: rest.tree indent depth
  | group b body rest =>
    if body = nil then b.opener :: b.closer :: rest.tree indent depth
    else b.opener :: (line indent (depth + 1) ++ body.tree indent (depth + 1) ++ line indent depth ++
      b.closer :: rest.tree indent depth)

/-- Behind a comma the arrangement leaves out the blanks that the tree starts with. -/
theorem text_arranged (f : Forest) (indent depth : Nat) (skipping : Bool) :
    (f.arranged indent depth skipping).text =
      if skipping then (f.tree indent depth).dropWhile isBlank else f.tree indent depth := by
  induction f generalizing depth skipping with
  | nil => cases skipping <;> rfl
  | char c g ih =>
    by_cases hc : c = ','
    · subst hc
      cases skipping <;> simp [arranged, tree, text, ih, show isBlank ',' = false from rfl]
    · cases skipping <;> by_cases hblank : isBlank c = true <;> simp [arranged, tree, text, ih, hc, hblank]
  | group b body g ihbody ih =>
    by_cases hbody : body = nil
    · cases skipping <;> simp [arranged, tree, text, ih, hbody]
    · cases skipping <;> simp [arranged, tree, text, ih, ihbody, hbody]

theorem deepest_le (f : Forest) (collapse depth : Nat) : f.deepest collapse depth ≤ f.nesting + depth := by
  induction f generalizing depth with
  | nil => exact Nat.zero_le _
  | char c g ih =>
    have hg := ih depth
    rw [deepest, nesting]
    split <;> omega
  | group b body g ihbody ih =>
    have hg := ih depth
    have hbody := ihbody (depth + 1)
    rw [deepest, nesting]
    by_cases hnil : body = nil
    · simp only [hnil, true_or, if_true]
      omega
    · simp only [hnil, false_or, if_false]
      split <;> omega

/-! ### Blanks around a text -/

theorem nesting_dropBlanks (f : Forest) : f.dropBlanks.nesting = f.nesting := by
  induction f with
  | nil => rfl
  | char c g ih => by_cases hc : isBlank c = true <;> simp [dropBlanks, nesting, hc, ih]
  | group b body g => rfl

theorem nesting_rdropBlanks (f : Forest) : f.rdropBlanks.nesting = f.nesting := by
  induction f with
  | nil => rfl
  | char c g ih =>
    rw [rdropBlanks, nesting, ← ih]
    split
    · next hnil => rw [hnil.1]
    · rfl
  | group b body g _ ih => simp [rdropBlanks, nesting, ih]

theorem nesting_trimmed (f : Forest) : f.trimmed.nesting = f.nesting := by
  rw [trimmed, nesting_rdropBlanks, nesting_dropBlanks]

end Forest

theorem trim_append {before cs after : List Char} (hbefore : ∀ c ∈ before, isBlank c = true)
    (hafter : ∀ c ∈ after, isBlank c = true) : trim (before ++ cs ++ after) = trim cs := by
  have hnone : after.rdropWhile isBlank = [] := List.rdropWhile_eq_nil_iff.2 hafter
  have htrim : ∀ cs, trim cs = (cs.dropWhile isBlank).rdropWhile isBlank := fun _ => rfl
  rw [htrim, htrim, List.append_assoc, List.dropWhile_append_of_pos hbefore, List.dropWhile_append]
  split
  · next hcs =>
    rw [List.isEmpty_iff] at hcs
    rw [hcs, List.dropWhile_eq_nil_iff.2 hafter]
  · rw [Forest.rdropWhile_append, if_pos hnone]

theorem layout_congr {style : Style} {s t : String} (h : trim s.toList = trim t.toList) :
    layout style s = layout style t := by
  rw [layout, layout, h]

/-! ### The layout -/

/-- If the groups of a text are not nested deeper than they are collapsed and its lines are not too long, its
layout is the tree of the text without the blanks around it. -/
theorem layout_eq_tree {f : Forest} {before after : List Char} {indent collapse : Nat} (hf : f.Lawful none)
    (hbefore : ∀ c ∈ before, isBlank c = true) (hafter : ∀ c ∈ after, isBlank c = true)
    (hcollapse : f.nesting ≤ collapse) (hfit : indent * f.nesting < Count.limit) :
    trim (before ++ f.text ++ after) = f.trimmed.text ∧
    layout ⟨indent, collapse⟩ (String.ofList (before ++ f.text ++ after)) =
      .ok (String.ofList (f.trimmed.tree indent 0)) := by
  have htrim : trim (before ++ f.text ++ after) = trim f.text := trim_append hbefore hafter
  refine ⟨htrim.trans Forest.text_trimmed.symm, ?_⟩
  have hnesting : f.trimmed.nesting + 0 ≤ collapse := f.nesting_trimmed ▸ hcollapse
  have hdeepest : f.trimmed.deepest collapse 0 ≤ f.nesting := by
    have hle := f.trimmed.deepest_le collapse 0
    rwa [f.nesting_trimmed] at hle
  have hshort : indent * f.trimmed.deepest collapse 0 < Count.limit :=
    Nat.lt_of_le_of_lt (Nat.mul_le_mul_left indent hdeepest) hfit
  have hpadded := @layout_congr ⟨indent, collapse⟩ (String.ofList (before ++ f.text ++ after))
    (String.ofList f.text) (by simpa using htrim)
  rw [hpadded, layout_text hf (by simp) (Forest.arrowsShown_of_nesting hnesting),
    Forest.hide_arranged hnesting, Forest.text_arranged, fitting, if_pos hshort]
  rfl

/-- A function type with blanks around it, an arrow in front of a closing bracket, and an empty group. -/
theorem layout_eq_tree_function : ∃ f : Forest, f.Lawful none ∧ f.nesting ≤ 2 ∧ 2 * f.nesting < Count.limit ∧
    trim " F<A ,  ->(B)>[] ".toList = f.trimmed.text ∧
    layout ⟨2, 2⟩ " F<A ,  ->(B)>[] " = .ok "F<\n  A ,\n  ->(\n    B\n  )\n>[]" := by
  let f : Forest := .char 'F' (.group .angle (.char 'A' (.char ' ' (.char ',' (.char ' ' (.char ' '
    (.char '-' (.char '>' (.group .round (.char 'B' .nil) .nil)))))))) (.group .square .nil .nil))
  have hf : f.Lawful none := by decide
  have hfit : 2 * f.nesting < Count.limit := by decide
  have hblank : ∀ c ∈ [' '], isBlank c = true := List.forall_mem_singleton.2 (by decide)
  obtain ⟨htrim, hlayout⟩ := layout_eq_tree hf hblank hblank (show f.nesting ≤ 2 by decide) hfit
  exact ⟨f, hf, by decide, hfit, htrim, hlayout⟩

end TensorCalculus.Layout
