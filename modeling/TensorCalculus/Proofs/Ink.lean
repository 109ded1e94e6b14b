import Mathlib.Logic.Function.Iterate
import TensorCalculus.Proofs.Bracketed

/-!
# What a layout keeps of a text

The layout goes through a text in turns, whether its brackets match or not. A `Cursor` is where it stands between
two turns, and `Cursor.next` is one turn. A turn that collapses no group writes the characters that it takes from
the text, blanks apart (`Cursor.Turn.exists_written`). So a layout in which no group is collapsed has the same
`ink` as the text (`Cursor.exists_output`).
-/

namespace TensorCalculus.Layout

/-! ### Characters that are not blank -/

/-- The characters of a text that are not blank. -/
def ink (cs : List Char) : List Char := cs.filter fun c => !isBlank c

section Ink
variable {cs ds : List Char}

theorem ink_append : ink (cs ++ ds) = ink cs ++ ink ds := List.filter_append ..

theorem ink_cons (c : Char) (cs : List Char) : ink (c :: cs) = ink [c] ++ ink cs := @ink_append [c] cs

theorem ink_of_isBlank (h : ∀ c ∈ cs, isBlank c = true) : ink cs = [] := by simpa [ink] using h

theorem ink_line (indent depth : Nat) : ink (Forest.line indent depth) = [] :=
  ink_of_isBlank fun c hc => by rcases mem_line hc with rfl | rfl <;> decide

theorem ink_dropWhile (cs : List Char) : ink (cs.dropWhile isBlank) = ink cs := by
  have hdropped : ink (cs.takeWhile isBlank) = [] := ink_of_isBlank fun c hc => List.mem_takeWhile_imp hc
  calc ink (cs.dropWhile isBlank) = ink (cs.takeWhile isBlank ++ cs.dropWhile isBlank) := by
        rw [ink_append, hdropped, List.nil_append]
    _ = ink cs := by rw [List.takeWhile_append_dropWhile]

theorem ink_reverse (cs : List Char) : ink cs.reverse = (ink cs).reverse := List.filter_reverse

theorem ink_trim (cs : List Char) : ink (trim cs) = ink cs := by
  rw [trim, ink_reverse, ink_dropWhile, ink_reverse, List.reverse_reverse, ink_dropWhile]

end Ink

/-! ### Kinds of characters -/

theorem exists_opener {c : Char} (h : closer? c ≠ none) : ∃ b : Bracket, c = b.opener := by
  unfold closer? at h
  split at h
  · next hc => exact ⟨.angle, hc⟩
  split at h
  · next hc => exact ⟨.round, hc⟩
  split at h
  · next hc => exact ⟨.square, hc⟩
  · exact absurd rfl h

theorem exists_closer {c : Char} (h : isCloser c = true) : ∃ b : Bracket, c = b.closer := by
  simp only [isCloser, Bool.or_eq_true, decide_eq_true_eq] at h
  rcases h with (rfl | rfl) | rfl
  · exact ⟨.angle, rfl⟩
  · exact ⟨.round, rfl⟩
  · exact ⟨.square, rfl⟩

/-- A character is a bracket, or neither opens nor closes a group behind the character `previous`. -/
theorem plain_or_bracket (previous : Option Char) (c : Char) : Plain previous c ∨
    (∃ b : Bracket, c = b.opener) ∨ ∃ b : Bracket, c = b.closer ∧ (b = .angle → previous ≠ some '-') := by
  by_cases hopen : closer? c = none
  · by_cases hplain : Plain previous c
    · exact .inl hplain
    · simp only [Plain, hopen, true_and, Classical.not_imp] at hplain
      obtain ⟨hclose, harrow⟩ := hplain
      obtain ⟨b, rfl⟩ := exists_closer hclose
      exact .inr (.inr ⟨b, rfl, fun hb hp => harrow ⟨hb ▸ rfl, hp⟩⟩)
  · exact .inr (.inl (exists_opener hopen))

/-! ### Turns -/

/-- The depth, the character that was handled last, and the text ahead. -/
structure Cursor where
  depth : Nat
  previous : Option Char
  ahead : List Char
deriving DecidableEq, Repr

namespace Cursor
variable {style : Style} {k k' : Cursor}

/-- Where the layout of a text starts. -/
def start (s : String) : Cursor := ⟨0, none, trim s.toList⟩

/-- One turn of the layout. At the end of the text nothing changes any more. -/
def next (style : Style) (k : Cursor) : Cursor :=
  match k.ahead with
  | [] => k
  | c :: cs =>
    if c = '>' ∧ k.previous = some '-' then ⟨k.depth, some c, cs⟩
    else match closer? c with
    | some close =>
      if cs.head? = some close then ⟨k.depth, some c, cs.tail⟩
      else if style.collapse ≤ k.depth then ⟨k.depth, some c, skipGroup 1 cs⟩
      else ⟨k.depth + 1, some c, cs⟩
    | none =>
      if isCloser c then ⟨k.depth - 1, some c, cs⟩
      else if c = ',' then ⟨k.depth, some c, cs.dropWhile isBlank⟩
      else ⟨k.depth, some c, cs⟩

/-- What is written from the cursor on. -/
def output (style : Style) (k : Cursor) : Checked (List Char) := layoutFrom style k.depth k.previous k.ahead

/-- What a turn can do. -/
inductive Turn (style : Style) : Cursor → Cursor → Prop where
  | plain {depth previous c cs} (h : Plain previous c) (hc : c ≠ ',') :
      Turn style ⟨depth, previous, c :: cs⟩ ⟨depth, some c, cs⟩
  | comma {depth previous cs} :
      Turn style ⟨depth, previous, ',' :: cs⟩ ⟨depth, some ',', cs.dropWhile isBlank⟩
  | empty {depth previous cs} (b : Bracket) :
      Turn style ⟨depth, previous, b.opener :: b.closer :: cs⟩ ⟨depth, some b.opener, cs⟩
  | collapse {depth previous cs} (b : Bracket) (h : cs.head? ≠ some b.closer) (hdepth : style.collapse ≤ depth) :
      Turn style ⟨depth, previous, b.opener :: cs⟩ ⟨depth, some b.opener, skipGroup 1 cs⟩
  | opening {depth previous cs} (b : Bracket) (h : cs.head? ≠ some b.closer) (hdepth : depth < style.collapse) :
      Turn style ⟨depth, previous, b.opener :: cs⟩ ⟨depth + 1, some b.opener, cs⟩
  | closing {depth previous cs} (b : Bracket) (h : b = .angle → previous ≠ some '-') :
      Turn style ⟨depth, previous, b.closer :: cs⟩ ⟨depth - 1, some b.closer, cs⟩

theorem turn_next (hk : k.ahead ≠ []) : Turn style k (k.next style) := by
  obtain ⟨depth, previous, ahead⟩ := k
  obtain ⟨c, cs, rfl⟩ := List.exists_cons_of_ne_nil hk
  rcases plain_or_bracket previous c with hplain | ⟨b, rfl⟩ | ⟨b, rfl, hb⟩
  · by_cases hcomma : c = ','
    · subst hcomma
      exact .comma
    · have hnext : next style ⟨depth, previous, c :: cs⟩ = ⟨depth, some c, cs⟩ := by
        by_cases harrow : c = '>' ∧ previous = some '-'
        · simp [next, harrow]
        · have hclose : isCloser c = false := Bool.eq_false_iff.2 fun h => harrow (hplain.2 h)
          simp [next, harrow, hplain.1, hclose, hcomma]
      rw [hnext]
      exact .plain hplain hcomma
  · have hne := (opener_ne b).1
    by_cases hempty : cs.head? = some b.closer
    · obtain ⟨ds, rfl⟩ := List.head?_eq_some_iff.1 hempty
      simpa [next, hne] using Turn.empty b
    · by_cases hdepth : style.collapse ≤ depth
      · simpa [next, hne, hempty, hdepth] using Turn.collapse b hempty hdepth
      · simpa [next, hne, hempty, hdepth] using Turn.opening b hempty (Nat.lt_of_not_le hdepth)
  · have harrow : ¬(b.closer = '>' ∧ previous = some '-') := by
      cases b <;> simp_all [Bracket.closer]
    simpa [next, harrow] using Turn.closing b hb

theorem Turn.length_lt (h : Turn style k k') : k'.ahead.length < k.ahead.length := by
  cases h with
  | plain | opening | closing => exact Nat.lt_succ_self _
  | comma => exact Nat.lt_succ_of_le (List.dropWhile_sublist _).length_le
  | empty => exact Nat.lt_succ_of_lt (Nat.lt_succ_self _)
  | collapse => exact Nat.lt_succ_of_le (length_skipGroup_le 1 _)

/-- A turn writes some text, and the rest is written from the next cursor on. -/
theorem Turn.exists_written (h : Turn style k k') (hfit : style.indent * k'.depth < Count.limit) :
    ∃ out, k.output style = (k'.output style).map (out ++ ·) ∧
      (k.depth < style.collapse → ink out ++ ink k'.ahead = ink k.ahead) := by
  cases h with
  | @plain _ _ c _ h hc => exact ⟨[c], layoutFrom_plain h hc, fun _ => ink_append.symm⟩
  | @comma depth =>
    refine ⟨',' :: Forest.line style.indent depth, layoutFrom_comma.trans (if_pos hfit), fun _ => ?_⟩
    rw [ink_cons, ink_line, ink_dropWhile, List.append_nil, ← ink_cons]
  | empty b => exact ⟨[b.opener, b.closer], layoutFrom_empty, fun _ => ink_append.symm⟩
  | @collapse depth _ _ b h hdepth =>
    exact ⟨[b.opener, '.', '.', '.', b.closer], layoutFrom_collapsed h hdepth,
      fun hlt => absurd hdepth (Nat.not_le.2 hlt)⟩
  | @opening depth _ _ b h hdepth =>
    refine ⟨b.opener :: Forest.line style.indent (depth + 1),
      (layoutFrom_opened h hdepth).trans (if_pos hfit), fun _ => ?_⟩
    rw [ink_cons, ink_line, List.append_nil, ← ink_cons]
  | @closing depth _ cs b h =>
    refine ⟨Forest.line style.indent (depth - 1) ++ [b.closer],
      (layoutFrom_closer h).trans ((if_pos hfit).trans ?_), fun _ => ?_⟩
    · simp only [List.append_assoc, List.singleton_append]
      rfl
    · rw [ink_append, ink_line, List.nil_append, ← ink_cons]

/-- The layout from a cursor on, if the depth never comes to where groups are collapsed and no line is too long. -/
theorem exists_output (hdepth : ∀ n, ((next style)^[n] k).depth < style.collapse)
    (hfit : ∀ n, style.indent * ((next style)^[n] k).depth < Count.limit) :
    ∃ out, k.output style = .ok out ∧ ink out = ink k.ahead := by
  induction hlength : k.ahead.length using Nat.strong_induction_on generalizing k with
  | _ n ih =>
    by_cases hk : k.ahead = []
    · exact ⟨[], by rw [output, hk, layoutFrom], by rw [hk]⟩
    · have hturn : Turn style k (k.next style) := turn_next hk
      obtain ⟨out, hout, hink⟩ := hturn.exists_written (hfit 1)
      obtain ⟨rest, hrest, hinkRest⟩ :=
        ih _ (hlength ▸ hturn.length_lt) (fun n => hdepth (n + 1)) (fun n => hfit (n + 1)) rfl
      refine ⟨out ++ rest, by rw [hout, hrest]; rfl, ?_⟩
      rw [ink_append, hinkRest, hink (hdepth 0)]

theorem next_of_nil (hk : k.ahead = []) : k.next style = k := by
  unfold next
  rw [hk]

/-- As many turns as there are characters are enough. -/
theorem ahead_iterate_next {n : Nat} (h : k.ahead.length ≤ n) : ((next style)^[n] k).ahead = [] := by
  induction n generalizing k with
  | zero => exact List.length_eq_zero_iff.1 (Nat.le_zero.1 h)
  | succ n ih =>
    rw [Function.iterate_succ_apply]
    by_cases hk : k.ahead = []
    · exact ih (by simp [next_of_nil, hk])
    · exact ih (Nat.le_of_lt_succ ((turn_next hk).length_lt.trans_le h))

/-- What holds in the turns that take a character holds for ever. -/
theorem forall_iterate_next {P : Cursor → Prop} (h : ∀ n < k.ahead.length + 1, P ((next style)^[n] k)) (n : Nat) :
    P ((next style)^[n] k) := by
  rcases Nat.lt_or_ge n (k.ahead.length + 1) with hn | hn
  · exact h n hn
  · obtain ⟨d, rfl⟩ := Nat.exists_eq_add_of_le' (Nat.le_of_succ_le hn)
    rw [Function.iterate_add_apply, Function.iterate_fixed (next_of_nil (ahead_iterate_next le_rfl))]
    exact h _ (Nat.lt_succ_self _)

end Cursor

/-- A layout of any text keeps the characters that are not blank, in their order, if the depth never comes to where
groups are collapsed and no line is too long. -/
theorem layout_keeps_ink {style : Style} {s : String}
    (hdepth : ∀ n, ((Cursor.next style)^[n] (.start s)).depth < style.collapse)
    (hfit : ∀ n, style.indent * ((Cursor.next style)^[n] (.start s)).depth < Count.limit) :
    ∃ out, layout style s = .ok out ∧ ink out.toList = ink s.toList := by
  obtain ⟨out, hout, hink⟩ := Cursor.exists_output hdepth hfit
  refine ⟨String.ofList out, bind_eq_ok.2 ⟨out, hout, rfl⟩, ?_⟩
  rw [String.toList_ofList, hink]
  exact ink_trim _

/-- A text with two brackets that close nothing and two that are open at the end or closed by another kind. -/
theorem layout_keeps_ink_mismatched :
    (∀ n, ((Cursor.next ⟨2, 3⟩)^[n] (.start " ])F<G(x>,  y ")).depth < 3) ∧
    (∀ n, 2 * ((Cursor.next ⟨2, 3⟩)^[n] (.start " ])F<G(x>,  y ")).depth < Count.limit) ∧
    ∃ out, layout ⟨2, 3⟩ " ])F<G(x>,  y " = .ok out ∧ ink out.toList = "])F<G(x>,y".toList := by
  have hdepth := @Cursor.forall_iterate_next ⟨2, 3⟩ (.start " ])F<G(x>,  y ") (·.depth < 3) (by decide +kernel)
  have hshort : 2 * 3 < Count.limit := by decide
  have hfit := fun n => (Nat.mul_lt_mul_of_pos_left (hdepth n) Nat.two_pos).trans hshort
  obtain ⟨out, hout, hink⟩ := @layout_keeps_ink ⟨2, 3⟩ _ hdepth hfit
  exact ⟨hdepth, hfit, out, hout, hink.trans (by decide +kernel)⟩

end TensorCalculus.Layout
