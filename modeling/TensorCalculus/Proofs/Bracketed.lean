import Mathlib.Data.List.DropRight
import TensorCalculus.Layout.Basic
import TensorCalculus.Proofs.Checked

/-!
# Text whose brackets match

A `Forest` is a row of characters and bracketed groups. `Forest.Lawful` says that it is what its text
reads as, where the second character of an arrow `->` closes nothing. Laying such a text out gives again
the text of a forest: `Forest.arranged` breaks its lines, and `Forest.hide` then shows the deep groups
as `...` and leaves everything else alone (`layoutFrom_text`). This fails if a group that is not shown
has an arrow in it, for there `skipGroup` counts the arrow as a closing bracket.
-/

namespace TensorCalculus.Layout

inductive Bracket where
  | angle
  | round
  | square
deriving DecidableEq, Repr

def Bracket.opener : Bracket → Char
  | .angle => '<'
  | .round => '('
  | .square => '['

def Bracket.closer : Bracket → Char
  | .angle => '>'
  | .round => ')'
  | .square => ']'

inductive Forest where
  | nil
  | char (c : Char) (rest : Forest)
  | group (bracket : Bracket) (body rest : Forest)
deriving DecidableEq, Repr

/-- Not a bracket, behind the character `previous`. -/
def Plain (previous : Option Char) (c : Char) : Prop :=
  closer? c = none ∧ (isCloser c = true → c = '>' ∧ previous = some '-')

instance (previous : Option Char) (c : Char) : Decidable (Plain previous c) :=
  inferInstanceAs (Decidable (_ ∧ _))

namespace Forest

def text : Forest → List Char
  | nil => []
  | char c rest => c :: rest.text
  | group b body rest => b.opener :: (body.text ++ b.closer :: rest.text)

/-- The last character of the text, or `previous` if there is none. -/
def last (previous : Option Char) : Forest → Option Char
  | nil => previous
  | char c rest => rest.last (some c)
  | group b _ rest => rest.last (some b.closer)

/-- The forest is what its text reads as behind the character `previous`. -/
def Lawful (previous : Option Char) : Forest → Prop
  | nil => True
  | char c rest => Plain previous c ∧ rest.Lawful (some c)
  | group b body rest => body.Lawful (some b.opener) ∧
      (b = .angle → body.last (some b.opener) ≠ some '-') ∧ rest.Lawful (some b.closer)

instance decidableLawful : (previous : Option Char) → (f : Forest) → Decidable (f.Lawful previous)
  | _, nil => isTrue trivial
  | _, char c rest =>
    have := decidableLawful (some c) rest
    inferInstanceAs (Decidable (_ ∧ _))
  | _, group b body rest =>
    have := decidableLawful (some b.opener) body
    have := decidableLawful (some b.closer) rest
    inferInstanceAs (Decidable (_ ∧ _ ∧ _))

/-- How many groups that are not empty lie in each other. -/
def nesting : Forest → Nat
  | nil => 0
  | char _ rest => rest.nesting
  | group _ body rest => max (if body = nil then 0 else body.nesting + 1) rest.nesting

/-- No arrow is in the text. -/
def Arrowless : Forest → Prop
  | nil => True
  | char c rest => isCloser c = false ∧ rest.Arrowless
  | group _ body rest => body.Arrowless ∧ rest.Arrowless

instance decidableArrowless : (f : Forest) → Decidable f.Arrowless
  | nil => isTrue trivial
  | char _ rest =>
    have := decidableArrowless rest
    inferInstanceAs (Decidable (_ ∧ _))
  | group _ body rest =>
    have := decidableArrowless body
    have := decidableArrowless rest
    inferInstanceAs (Decidable (_ ∧ _))

/-- No arrow is in a group that is collapsed. -/
def ArrowsShown (collapse depth : Nat) : Forest → Prop
  | nil => True
  | char _ rest => rest.ArrowsShown collapse depth
  | group _ body rest => (collapse ≤ depth → body.Arrowless) ∧
      (depth < collapse → body.ArrowsShown collapse (depth + 1)) ∧ rest.ArrowsShown collapse depth

instance decidableArrowsShown (collapse : Nat) :
    (depth : Nat) → (f : Forest) → Decidable (f.ArrowsShown collapse depth)
  | _, nil => isTrue trivial
  | depth, char _ rest => decidableArrowsShown collapse depth rest
  | depth, group _ body rest =>
    have := decidableArrowsShown collapse (depth + 1) body
    have := decidableArrowsShown collapse depth rest
    inferInstanceAs (Decidable (_ ∧ _ ∧ _))

/-! ### The layout of a forest -/

def append : Forest → Forest → Forest
  | nil, g => g
  | char c rest, g => char c (rest.append g)
  | group b body rest, g => group b body (rest.append g)

def ofChars (cs : List Char) : Forest := cs.foldr char nil

/-- A line break in a text that is laid out. -/
def line (indent depth : Nat) : List Char := '\n' :: List.replicate (indent * depth) ' '

/-- The forest with its lines broken at a depth. Blanks are left out while `skipping`, that is behind a
comma. -/
def arranged (indent depth : Nat) (skipping : Bool) : Forest → Forest
  | nil => nil
  | char c rest =>
    if skipping && isBlank c then rest.arranged indent depth true
    else if c = ',' then char c ((ofChars (line indent depth)).append (rest.arranged indent depth true))
    else char c (rest.arranged indent depth false)
  | group b body rest =>
    group b
      (if body = nil then nil
        else (ofChars (line indent (depth + 1))).append
          ((body.arranged indent (depth + 1) false).append (ofChars (line indent depth))))
      (rest.arranged indent depth false)

def dots : Forest := ofChars ['.', '.', '.']

/-- Shows the groups from a depth on as `...`, unless they are empty. -/
def hide (collapse depth : Nat) : Forest → Forest
  | nil => nil
  | char c rest => char c (rest.hide collapse depth)
  | group b body rest =>
    group b
      (if body = nil then nil else if collapse ≤ depth then dots else body.hide collapse (depth + 1))
      (rest.hide collapse depth)

/-- The depth of the deepest line break. -/
def deepest (collapse depth : Nat) : Forest → Nat
  | nil => 0
  | char c rest => max (if c = ',' then depth else 0) (rest.deepest collapse depth)
  | group _ body rest =>
    max (if body = nil ∨ collapse ≤ depth then 0
        else max (depth + 1) (body.deepest collapse (depth + 1)))
      (rest.deepest collapse depth)

section Text
variable {f g : Forest} {b : Bracket} {c : Char} {cs : List Char} {p q : Option Char}

@[simp] theorem text_append : (f.append g).text = f.text ++ g.text := by
  induction f with
  | nil => rfl
  | char c rest ih => simp [append, text, ih]
  | group b body rest _ ih => simp [append, text, ih]

@[simp] theorem text_ofChars : (ofChars cs).text = cs := by
  induction cs with
  | nil => rfl
  | cons c cs ih => simpa [ofChars, text] using ih

theorem last_append : (f.append g).last p = g.last (f.last p) := by
  induction f generalizing p with
  | nil => rfl
  | char c rest ih => exact ih
  | group b body rest _ ih => exact ih

theorem append_eq_nil : f.append g = nil ↔ f = nil ∧ g = nil := by
  cases f <;> simp [append]

theorem lawful_append : (f.append g).Lawful p ↔ f.Lawful p ∧ g.Lawful (f.last p) := by
  induction f generalizing p with
  | nil => simp [append, Lawful, last]
  | char c rest ih => simp [append, Lawful, last, ih, and_assoc]
  | group b body rest _ ih => simp [append, Lawful, last, ih, and_assoc]

@[simp] theorem ofChars_line_ne_nil {indent depth : Nat} : ofChars (line indent depth) ≠ nil := nofun

theorem hide_append {collapse depth : Nat} :
    (f.append g).hide collapse depth = (f.hide collapse depth).append (g.hide collapse depth) := by
  induction f with
  | nil => rfl
  | char c rest ih => simp [append, hide, ih]
  | group b body rest _ ih => simp [append, hide, ih]

@[simp] theorem hide_ofChars {collapse depth : Nat} : (ofChars cs).hide collapse depth = ofChars cs := by
  induction cs with
  | nil => rfl
  | cons c cs ih => exact congrArg (char c) ih

/-- Only whether an arrow can end here matters. -/
theorem Lawful.congr (h : f.Lawful p) (hpq : p = some '-' → q = some '-') : f.Lawful q := by
  cases f with
  | nil => trivial
  | char c rest => exact ⟨⟨h.1.1, fun hc => ⟨(h.1.2 hc).1, hpq (h.1.2 hc).2⟩⟩, h.2⟩
  | group b body rest => exact h

end Text

end Forest

/-! ### Brackets and blanks -/

section Chars
variable {b : Bracket} {c : Char} {p : Option Char}

@[simp] theorem closer?_opener : closer? b.opener = some b.closer := by cases b <;> rfl

@[simp] theorem closer?_closer : closer? b.closer = none := by cases b <;> rfl

@[simp] theorem isCloser_closer : isCloser b.closer = true := by cases b <;> rfl

@[simp] theorem isBlank_opener : isBlank b.opener = false := by cases b <;> rfl

@[simp] theorem isBlank_closer : isBlank b.closer = false := by cases b <;> rfl

theorem opener_ne_closer {b' : Bracket} : b.opener ≠ b'.closer := by cases b <;> cases b' <;> decide

theorem opener_ne (b : Bracket) : b.opener ≠ '>' ∧ b.opener ≠ '-' ∧ b.opener ≠ ',' := by cases b <;> decide

theorem closer_ne (b : Bracket) : b.closer ≠ '-' ∧ b.closer ≠ ',' := by cases b <;> decide

theorem ne_dash_of_isBlank (h : isBlank c = true) : c ≠ '-' := by
  rintro rfl
  revert h
  decide

/-- A character that is neither a bracket nor the end of an arrow. -/
theorem plain_of_not_isCloser (h : closer? c = none) (h' : isCloser c = false) : Plain p c :=
  ⟨h, by simp [h']⟩

theorem Forest.lawful_ofChars {cs : List Char} (h : ∀ c ∈ cs, closer? c = none ∧ isCloser c = false) :
    (Forest.ofChars cs).Lawful p := by
  induction cs generalizing p with
  | nil => trivial
  | cons c cs ih =>
    obtain ⟨hc, hcs⟩ := List.forall_mem_cons.1 h
    exact ⟨plain_of_not_isCloser hc.1 hc.2, ih hcs⟩

theorem Forest.last_ofChars {cs : List Char} {previous : Option Char} (hp : previous ≠ some '-')
    (h : ∀ c ∈ cs, c ≠ '-') : (Forest.ofChars cs).last previous ≠ some '-' := by
  induction cs generalizing previous with
  | nil => exact hp
  | cons c cs ih =>
    obtain ⟨hc, hcs⟩ := List.forall_mem_cons.1 h
    exact ih (by simpa using hc) hcs

theorem mem_line {indent depth : Nat} (h : c ∈ Forest.line indent depth) : c = '\n' ∨ c = ' ' := by
  rcases List.mem_cons.1 h with rfl | h
  · exact .inl rfl
  · exact .inr (List.eq_of_mem_replicate h)

theorem lawful_line (indent depth : Nat) : (Forest.ofChars (Forest.line indent depth)).Lawful p :=
  Forest.lawful_ofChars fun c hc => by rcases mem_line hc with rfl | rfl <;> decide

theorem last_line (indent depth : Nat) :
    (Forest.ofChars (Forest.line indent depth)).last p ≠ some '-' := by
  show (Forest.ofChars (List.replicate (indent * depth) ' ')).last (some '\n') ≠ some '-'
  refine Forest.last_ofChars (by decide) fun c hc => ?_
  rw [List.eq_of_mem_replicate hc]
  decide

end Chars

/-! ### Skipping a group -/

section Skip
variable {f : Forest} {b : Bracket} {p : Option Char} {n : Nat} {rest : List Char}

theorem skipGroup_opener : skipGroup n (b.opener :: rest) = skipGroup (n + 1) rest := by
  simp [skipGroup]

theorem skipGroup_closer : skipGroup (n + 2) (b.closer :: rest) = skipGroup (n + 1) rest := by
  simp [skipGroup]

theorem skipGroup_last_closer : skipGroup 1 (b.closer :: rest) = rest := by
  simp [skipGroup]

/-- The brackets of a text without arrows close each other. -/
theorem skipGroup_text (h : f.Lawful p) (harrow : f.Arrowless) :
    skipGroup (n + 1) (f.text ++ rest) = skipGroup (n + 1) rest := by
  induction f generalizing p n rest with
  | nil => rfl
  | char c g ih =>
    rw [Forest.text, List.cons_append, skipGroup, h.1.1, harrow.1]
    exact ih h.2 harrow.2
  | group b body g ihbody ih =>
    rw [Forest.text, List.cons_append, List.append_assoc, skipGroup_opener, ihbody h.1 harrow.1,
      List.cons_append, skipGroup_closer, ih h.2.2 harrow.2]

/-- A group is skipped up to its own closing bracket. -/
theorem skipGroup_group (h : f.Lawful p) (harrow : f.Arrowless) :
    skipGroup 1 (f.text ++ b.closer :: rest) = rest := by
  rw [skipGroup_text h harrow, skipGroup_last_closer]

end Skip

/-! ### One step of the layout -/

/-- The computation, unless a line break at the depth is too long. -/
def fitting {β : Type} (indent depth : Nat) (x : Checked β) : Checked β :=
  if indent * depth < Count.limit then x else .error .overflow

section Step
variable {β γ : Type} {indent depth n : Nat} {style : Style} {b : Bracket} {c : Char} {cs rest : List Char}
  {p q : Option Char}

theorem fitting_zero (x : Checked β) : fitting indent 0 x = x := if_pos (by simp [Count.limit])

theorem fitting_fitting (x : Checked β) :
    fitting indent depth (fitting indent n x) = fitting indent (max depth n) x := by
  have hmax : indent * max depth n = max (indent * depth) (indent * n) := Nat.mul_max_mul_left ..|>.symm
  unfold fitting
  rw [hmax]
  by_cases hdepth : indent * depth < Count.limit
  · rw [if_pos hdepth]
    exact if_congr (by omega) rfl rfl
  · rw [if_neg hdepth, if_neg (by omega)]

theorem map_fitting (f : β → γ) (x : Checked β) :
    (fitting indent depth x).map f = fitting indent depth (x.map f) := by
  unfold fitting
  split <;> rfl

theorem map_map {δ : Type} (f : γ → δ) (g : β → γ) (x : Checked β) :
    (x.map g).map f = x.map fun y => f (g y) := by
  cases x <;> rfl

theorem map_id (x : Checked β) : (x.map fun y => y) = x := by
  cases x <;> rfl

theorem lineBreak_bind (f : List Char → Checked β) :
    (lineBreak style depth >>= f) = fitting style.indent depth (f (Forest.line style.indent depth)) := by
  unfold lineBreak fitting Count.mul Count.check
  split <;> rfl

theorem bind_pure_eq_map (x : Checked β) (f : β → γ) : (do return f (← x)) = x.map f := by
  cases x <;> rfl

/-- Only whether an arrow can end here matters. -/
theorem layoutFrom_congr (h : p = some '-' ↔ q = some '-') :
    layoutFrom style depth p cs = layoutFrom style depth q cs := by
  cases cs with
  | nil => rw [layoutFrom, layoutFrom]
  | cons c cs => rw [layoutFrom, layoutFrom]; simp only [h]

theorem layoutFrom_plain (h : Plain p c) (hc : c ≠ ',') :
    layoutFrom style depth p (c :: cs) = (layoutFrom style depth (some c) cs).map (c :: ·) := by
  rw [layoutFrom, ← bind_pure_eq_map, h.1]
  split
  · rfl
  · next harrow =>
    have hclose : isCloser c = false := by
      by_contra hclose
      simp only [Bool.not_eq_false] at hclose
      simp [h.2 hclose] at harrow
    simp [hclose]

theorem layoutFrom_comma : layoutFrom style depth p (',' :: cs) = fitting style.indent depth
    ((layoutFrom style depth (some ',') (cs.dropWhile isBlank)).map
      (',' :: Forest.line style.indent depth ++ ·)) := by
  rw [layoutFrom]
  simp only [show closer? ',' = none from rfl, show isCloser ',' = false from rfl, lineBreak_bind,
    bind_pure_eq_map]
  simp

theorem layoutFrom_empty : layoutFrom style depth p (b.opener :: b.closer :: cs) =
    (layoutFrom style depth (some b.opener) cs).map (b.opener :: b.closer :: ·) := by
  rw [layoutFrom, ← bind_pure_eq_map]
  simp [(opener_ne b).1]

theorem layoutFrom_collapsed (hcs : cs.head? ≠ some b.closer) (h : style.collapse ≤ depth) :
    layoutFrom style depth p (b.opener :: cs) =
      (layoutFrom style depth (some b.opener) (skipGroup 1 cs)).map
        (b.opener :: '.' :: '.' :: '.' :: b.closer :: ·) := by
  rw [layoutFrom, ← bind_pure_eq_map]
  simp [(opener_ne b).1, hcs, h]

theorem layoutFrom_opened (hcs : cs.head? ≠ some b.closer) (h : depth < style.collapse) :
    layoutFrom style depth p (b.opener :: cs) = fitting style.indent (depth + 1)
      ((layoutFrom style (depth + 1) (some b.opener) cs).map
        (b.opener :: Forest.line style.indent (depth + 1) ++ ·)) := by
  rw [layoutFrom]
  simp only [closer?_opener, lineBreak_bind, bind_pure_eq_map]
  simp [(opener_ne b).1, hcs, Nat.not_le.2 h]

theorem layoutFrom_closer (hp : b = .angle → p ≠ some '-') :
    layoutFrom style depth p (b.closer :: cs) = fitting style.indent (depth - 1)
      ((layoutFrom style (depth - 1) (some b.closer) cs).map
        (Forest.line style.indent (depth - 1) ++ b.closer :: ·)) := by
  have harrow : (b.closer = '>' && p = some '-') = false := by
    cases b <;> simp_all [Bracket.closer]
  rw [layoutFrom, harrow]
  simp only [closer?_closer, isCloser_closer, lineBreak_bind, bind_pure_eq_map]
  simp

end Step

/-! ### The layout of a whole text -/

section Layout
variable {style : Style} {f : Forest} {b b' : Bracket} {depth : Nat} {p q : Option Char} {skipping : Bool}
  {rest : List Char}

/-- A group that is not empty does not start with a closing bracket. -/
theorem head?_text_ne (hf : f.Lawful (some b.opener)) (hne : f ≠ .nil) :
    (f.text ++ rest).head? ≠ some b'.closer := by
  cases f with
  | nil => exact absurd rfl hne
  | char c g =>
    intro hc
    obtain rfl : c = b'.closer := by simpa [Forest.text] using hc
    exact (opener_ne b).2.1 (Option.some.inj (hf.1.2 isCloser_closer).2)
  | group b' body g => simpa [Forest.text] using opener_ne_closer

theorem layoutFrom_text (hf : f.Lawful q) (harrow : f.ArrowsShown style.collapse depth)
    (hpq : p = some '-' ↔ q = some '-') (hskip : skipping = true → p ≠ some '-')
    (hrest : rest.dropWhile isBlank = rest) :
    layoutFrom style depth p (if skipping then (f.text ++ rest).dropWhile isBlank else f.text ++ rest) =
      fitting style.indent (f.deepest style.collapse depth) ((layoutFrom style depth (f.last q) rest).map
        (((f.arranged style.indent depth skipping).hide style.collapse depth).text ++ ·)) := by
  induction f generalizing depth p q skipping rest with
  | nil =>
    simp only [Forest.text, Forest.deepest, Forest.last, Forest.arranged, Forest.hide, List.nil_append,
      hrest, ite_self, fitting_zero, map_id]
    exact layoutFrom_congr hpq
  | char c g ih =>
    by_cases hblank : (skipping && isBlank c) = true
    · obtain ⟨rfl, hc⟩ := Bool.and_eq_true_iff.1 hblank
      have hcomma : c ≠ ',' := by rintro rfl; revert hc; decide
      have hg := @ih depth p _ true rest hf.2 harrow
        (by simp [hskip rfl, ne_dash_of_isBlank hc]) hskip hrest
      simpa [Forest.text, Forest.deepest, Forest.last, Forest.arranged, hc, hcomma] using hg
    · have hinput : (if skipping then ((Forest.char c g).text ++ rest).dropWhile isBlank
          else (Forest.char c g).text ++ rest) = c :: (g.text ++ rest) := by
        cases skipping <;> simp_all [Forest.text]
      rw [hinput, Forest.arranged, if_neg hblank]
      by_cases hc : c = ','
      · subst hc
        have hg := @ih depth (some ',') _ true rest hf.2 harrow Iff.rfl (by decide) hrest
        rw [if_pos rfl] at hg
        rw [layoutFrom_comma, hg, map_fitting, fitting_fitting, map_map]
        simp [Forest.deepest, Forest.last, Forest.hide, Forest.hide_append, Forest.text]
      · have hg := @ih depth (some c) _ false rest hf.2 harrow Iff.rfl (by simp) hrest
        rw [if_neg (by simp)] at hg
        have hplain : Plain p c := ⟨hf.1.1, fun h => ⟨(hf.1.2 h).1, hpq.2 (hf.1.2 h).2⟩⟩
        rw [layoutFrom_plain hplain hc, hg, map_fitting, map_map]
        simp [Forest.deepest, Forest.last, hc, Forest.hide, Forest.text]
  | group b body g ihbody ih =>
    have hinput : (if skipping then ((Forest.group b body g).text ++ rest).dropWhile isBlank
        else (Forest.group b body g).text ++ rest) =
          b.opener :: (body.text ++ b.closer :: (g.text ++ rest)) := by
      cases skipping <;> simp [Forest.text]
    -- behind the group it does not matter which of its brackets came last
    have hg := @ih depth (some b.closer) _ false rest hf.2.2 harrow.2.2 Iff.rfl (by simp) hrest
    rw [if_neg (by simp)] at hg
    have hbehind : layoutFrom style depth (some b.opener) (g.text ++ rest) =
        layoutFrom style depth (some b.closer) (g.text ++ rest) :=
      layoutFrom_congr (by simp [opener_ne, closer_ne])
    rw [hinput]
    by_cases hbody : body = .nil
    · subst hbody
      rw [Forest.text, List.nil_append, layoutFrom_empty, hbehind, hg, map_fitting, map_map]
      simp [Forest.deepest, Forest.last, Forest.arranged, Forest.hide, Forest.text]
    have hhead : (body.text ++ b.closer :: (g.text ++ rest)).head? ≠ some b.closer :=
      head?_text_ne hf.1 hbody
    by_cases hcollapse : style.collapse ≤ depth
    · rw [layoutFrom_collapsed hhead hcollapse, skipGroup_group hf.1 (harrow.1 hcollapse), hbehind, hg,
        map_fitting, map_map]
      simp [Forest.deepest, Forest.last, Forest.arranged, Forest.hide, Forest.text, hbody, hcollapse,
        Forest.append_eq_nil, Forest.dots]
    · have hlt : depth < style.collapse := Nat.lt_of_not_le hcollapse
      have hbodyText := @ihbody (depth + 1) (some b.opener) _ false
        (b.closer :: (g.text ++ rest)) hf.1 (harrow.2.1 hlt) Iff.rfl (by simp) (by simp)
      rw [if_neg (by simp)] at hbodyText
      have hdeepest : (Forest.group b body g).deepest style.collapse depth = max (depth + 1)
          (max (body.deepest style.collapse (depth + 1)) (max depth (g.deepest style.collapse depth))) := by
        simp only [Forest.deepest, hbody, hcollapse, or_self, if_false]
        omega
      rw [layoutFrom_opened hhead hlt, hbodyText, layoutFrom_closer hf.2.1,
        Nat.add_sub_cancel, hg, hdeepest]
      simp only [map_fitting, fitting_fitting, map_map]
      simp [Forest.last, Forest.arranged, Forest.hide, Forest.hide_append, Forest.text, hbody, hcollapse,
        Forest.append_eq_nil]

end Layout

/-! ### The brackets of a layout match -/

namespace Forest
variable {f : Forest} {p q : Option Char} {collapse depth indent : Nat} {skipping : Bool}

theorem last_hide : (f.hide collapse depth).last p = f.last p := by
  induction f generalizing p with
  | nil => rfl
  | char c g ih => exact ih
  | group b body g _ ih => exact ih

theorem eq_of_mem_dots {c : Char} (hc : c ∈ ['.', '.', '.']) : c = '.' := by simpa using hc

theorem Lawful.hide (hf : f.Lawful p) : (f.hide collapse depth).Lawful p := by
  induction f generalizing p depth with
  | nil => trivial
  | char c g ih => exact ⟨hf.1, ih hf.2⟩
  | group b body g ihbody ih =>
    obtain ⟨hbody, hlast, hg⟩ := hf
    rw [Forest.hide]
    split
    · next hnil => exact ⟨trivial, hnil ▸ hlast, ih hg⟩
    split
    · refine ⟨lawful_ofChars fun c hc => ?_, fun _ => last_ofChars (by simp [opener_ne]) fun c hc => ?_, ih hg⟩
      · rw [eq_of_mem_dots hc]
        decide
      · rw [eq_of_mem_dots hc]
        decide
    · exact ⟨ihbody hbody, fun hb => by rw [last_hide]; exact hlast hb, ih hg⟩

theorem Lawful.arranged (hf : f.Lawful q) (hpq : q = some '-' → p = some '-') :
    (f.arranged indent depth skipping).Lawful p := by
  induction f generalizing p q depth skipping with
  | nil => trivial
  | char c g ih =>
    have hplain : Plain p c := ⟨hf.1.1, fun hc => ⟨(hf.1.2 hc).1, hpq (hf.1.2 hc).2⟩⟩
    rw [Forest.arranged]
    split
    · next hblank =>
      have hc := ne_dash_of_isBlank (Bool.and_eq_true_iff.1 hblank).2
      exact ih hf.2 fun h => absurd (Option.some.inj h) hc
    split
    · next hcomma =>
      refine ⟨hplain, lawful_append.2 ⟨lawful_line _ _, ih hf.2 fun h => ?_⟩⟩
      rw [hcomma] at h
      exact absurd h (by decide)
    · exact ⟨hplain, ih hf.2 id⟩
  | group b body g ihbody ih =>
    obtain ⟨hbody, hlast, hg⟩ := hf
    rw [Forest.arranged]
    split
    · next hnil => exact ⟨trivial, hnil ▸ hlast, ih hg id⟩
    · refine ⟨?_, fun _ => ?_, ih hg id⟩
      · simp only [lawful_append]
        exact ⟨lawful_line _ _, ihbody hbody fun h => absurd h (by simp [opener_ne]), lawful_line _ _⟩
      · simp only [last_append]
        exact last_line _ _

/-- A layout whose groups are all shown. -/
theorem hide_arranged (h : f.nesting + depth ≤ collapse) :
    (f.arranged indent depth skipping).hide collapse depth = f.arranged indent depth skipping := by
  induction f generalizing depth skipping with
  | nil => rfl
  | char c g ih =>
    have hg := fun skipping => @ih depth skipping h
    rw [Forest.arranged]
    split
    · exact hg true
    split <;> simp [Forest.hide, hide_append, hg]
  | group b body g ihbody ih =>
    rw [nesting] at h
    have hg := @ih depth false (by omega)
    rw [Forest.arranged]
    split
    · simp [Forest.hide, hg]
    · next hne =>
      rw [if_neg hne] at h
      have hbody := @ihbody (depth + 1) false (by omega)
      have hshown : ¬collapse ≤ depth := by omega
      simp [Forest.hide, hide_append, append_eq_nil, hshown, hbody, hg]

theorem arrowsShown_of_nesting (h : f.nesting + depth ≤ collapse) : f.ArrowsShown collapse depth := by
  induction f generalizing depth with
  | nil => trivial
  | char c g ih => exact ih h
  | group b body g ihbody ih =>
    rw [nesting] at h
    by_cases hnil : body = nil
    · subst hnil
      exact ⟨fun _ => trivial, fun _ => trivial, ih (by omega)⟩
    · rw [if_neg hnil] at h
      exact ⟨fun hle => by omega, fun _ => ihbody (by omega), ih (by omega)⟩

end Forest

/-! ### Blanks around a text -/

namespace Forest
variable {f : Forest} {p : Option Char}

def dropBlanks : Forest → Forest
  | nil => nil
  | char c rest => if isBlank c then rest.dropBlanks else char c rest
  | group b body rest => group b body rest

def rdropBlanks : Forest → Forest
  | nil => nil
  | char c rest => if rest.rdropBlanks = nil ∧ isBlank c = true then nil else char c rest.rdropBlanks
  | group b body rest => group b body rest.rdropBlanks

/-- The forest without the blanks at its ends. -/
def trimmed (f : Forest) : Forest := f.dropBlanks.rdropBlanks

theorem text_eq_nil : f.text = [] ↔ f = nil := by
  cases f <;> simp [text]

theorem Lawful.dropBlanks (hf : f.Lawful p) (hp : p ≠ some '-') : f.dropBlanks.Lawful p := by
  induction f generalizing p with
  | nil => trivial
  | char c g ih =>
    rw [Forest.dropBlanks]
    split
    · next hc =>
      have hdash : some c ≠ some '-' := fun h => ne_dash_of_isBlank hc (Option.some.inj h)
      exact (ih hf.2 hdash).congr fun h => absurd h hdash
    · exact hf
  | group b body g => exact hf

theorem Lawful.rdropBlanks (hf : f.Lawful p) : f.rdropBlanks.Lawful p := by
  induction f generalizing p with
  | nil => trivial
  | char c g ih =>
    rw [Forest.rdropBlanks]
    split
    · trivial
    · exact ⟨hf.1, ih hf.2⟩
  | group b body g _ ih => exact ⟨hf.1, hf.2.1, ih hf.2.2⟩

theorem text_dropBlanks : f.dropBlanks.text = f.text.dropWhile isBlank := by
  induction f with
  | nil => rfl
  | char c g ih => by_cases hc : isBlank c = true <;> simp [Forest.dropBlanks, text, hc, ih]
  | group b body g => simp [Forest.dropBlanks, text]

theorem rdropWhile_append {γ : Type} (drop : γ → Bool) (xs ys : List γ) : (xs ++ ys).rdropWhile drop =
    if ys.rdropWhile drop = [] then xs.rdropWhile drop else xs ++ ys.rdropWhile drop := by
  simp only [List.rdropWhile, List.reverse_append, List.dropWhile_append, List.isEmpty_iff,
    List.reverse_eq_nil_iff]
  split <;> simp

theorem rdropWhile_cons {γ : Type} (drop : γ → Bool) (x : γ) (xs : List γ) : (x :: xs).rdropWhile drop =
    if xs.rdropWhile drop = [] ∧ drop x = true then [] else x :: xs.rdropWhile drop := by
  rw [← List.singleton_append, rdropWhile_append, List.rdropWhile_singleton]
  by_cases hxs : xs.rdropWhile drop = [] <;> by_cases hx : drop x = true <;> simp [hxs, hx]

theorem text_rdropBlanks : f.rdropBlanks.text = f.text.rdropWhile isBlank := by
  induction f with
  | nil => rfl
  | char c g ih =>
    simp only [text, rdropWhile_cons, ← ih, text_eq_nil, Forest.rdropBlanks]
    split <;> rfl
  | group b body g _ ih =>
    have hclose : (b.closer :: g.text).rdropWhile isBlank = b.closer :: g.rdropBlanks.text := by
      rw [rdropWhile_cons, if_neg (by simp), ih]
    rw [text, ← List.cons_append, rdropWhile_append, hclose, if_neg (by simp)]
    rfl

theorem Lawful.trimmed (hf : f.Lawful none) : f.trimmed.Lawful none :=
  (hf.dropBlanks (by simp)).rdropBlanks

theorem text_trimmed : f.trimmed.text = trim f.text := by
  rw [trimmed, text_rdropBlanks, text_dropBlanks]
  rfl

end Forest

theorem layout_text {style : Style} {s : String} {f : Forest} (hf : f.Lawful none)
    (hs : s.toList = f.text) (harrow : f.trimmed.ArrowsShown style.collapse 0) :
    layout style s = fitting style.indent (f.trimmed.deepest style.collapse 0)
      (.ok (String.ofList ((f.trimmed.arranged style.indent 0 false).hide style.collapse 0).text)) := by
  have hlayout := @layoutFrom_text style _ 0 none none false [] hf.trimmed harrow Iff.rfl (by simp) rfl
  rw [if_neg (by simp), List.append_nil, Forest.text_trimmed, ← hs, layoutFrom] at hlayout
  rw [layout, hlayout, bind_pure_eq_map, map_fitting]
  simp [Except.map]

/-- In a text whose brackets match, a group that is collapsed is shown as its brackets and three dots,
and the layout goes on behind its closing bracket. What is outside these groups looks as it does
if nothing is collapsed, and the brackets match again. No arrow may be in a group that is collapsed. -/
theorem layout_collapses {s : String} {f : Forest} (hf : f.Lawful none) (hs : s.toList = f.text) :
    (∀ indent collapse, f.trimmed.ArrowsShown collapse 0 →
      layout ⟨indent, collapse⟩ s = fitting indent (f.trimmed.deepest collapse 0)
        (.ok (String.ofList ((f.trimmed.arranged indent 0 false).hide collapse 0).text)) ∧
      ((f.trimmed.arranged indent 0 false).hide collapse 0).Lawful none) ∧
    (∀ indent large, f.trimmed.nesting ≤ large →
      layout ⟨indent, large⟩ s = fitting indent (f.trimmed.deepest large 0)
        (.ok (String.ofList (f.trimmed.arranged indent 0 false).text))) ∧
    ∀ style depth previous (b : Bracket) (body : Forest) rest, body.Lawful (some b.opener) →
      body.Arrowless → body ≠ .nil → style.collapse ≤ depth →
      skipGroup 1 (body.text ++ b.closer :: rest) = rest ∧
      layoutFrom style depth previous (b.opener :: (body.text ++ b.closer :: rest)) =
        (layoutFrom style depth (some b.opener) rest).map
          (b.opener :: '.' :: '.' :: '.' :: b.closer :: ·) := by
  refine ⟨fun indent collapse harrow => ⟨layout_text hf hs harrow, ?_⟩, ?_, ?_⟩
  · exact (hf.trimmed.arranged id).hide
  · intro indent large hlarge
    have hshown := @layout_text ⟨indent, large⟩ s f hf hs (Forest.arrowsShown_of_nesting hlarge)
    rwa [Forest.hide_arranged hlarge] at hshown
  · intro style depth previous b body rest hbody harrow hne hcollapse
    have hskip : skipGroup 1 (body.text ++ b.closer :: rest) = rest := skipGroup_group hbody harrow
    exact ⟨hskip, by rw [layoutFrom_collapsed (head?_text_ne hbody hne) hcollapse, hskip]⟩

/-- The arguments of a function are collapsed, and the arrow behind them is shown. -/
theorem layout_collapses_arguments : ∃ f : Forest, f.Lawful none ∧ f.text = "A<fn(u8) -> E>".toList ∧
    f.trimmed.ArrowsShown 1 0 ∧ layout ⟨2, 1⟩ "A<fn(u8) -> E>" = .ok "A<\n  fn(...) -> E\n>" := by
  let f : Forest := .char 'A' (.group .angle (.char 'f' (.char 'n' (.group .round
    (.char 'u' (.char '8' .nil)) (Forest.ofChars " -> E".toList)))) .nil)
  have hf : f.Lawful none := by decide
  have htext : f.text = "A<fn(u8) -> E>".toList := by decide
  have harrow : f.trimmed.ArrowsShown 1 0 := by decide
  refine ⟨f, hf, htext, harrow, ?_⟩
  rw [((layout_collapses hf htext.symm).1 2 1 harrow).1]
  decide

/-- An arrow in a group that is collapsed ends the group. -/
theorem layout_leaks_arrow : ∃ f : Forest, f.Lawful none ∧ f.text = "F<fn(A) -> B, C>".toList ∧
    ((f.trimmed.arranged 2 0 false).hide 0 0).text = "F<...>".toList ∧
    layout ⟨2, 0⟩ "F<fn(A) -> B, C>" = .ok "F<...> B,\nC\n>" := by
  let f : Forest := .char 'F' (.group .angle (.char 'f' (.char 'n' (.group .round
    (.char 'A' .nil) (Forest.ofChars " -> B, C".toList)))) .nil)
  exact ⟨f, by decide, by decide, by decide, by decide +kernel⟩

end TensorCalculus.Layout
