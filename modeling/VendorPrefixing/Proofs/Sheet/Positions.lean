import VendorPrefixing.Proofs.Sheet.Leaves
import VendorPrefixing.Proofs.Sheet.Settled

/-!
# Reported positions

A position names a character of the text that was given, or its end: its line is told by
the line feeds before it, its column by the characters since the last of them.

Main results:

- Theorem `Position.ofOffset_injective`: a position names one place of a text.
- Theorem `Reading.isOn_of_run`: a fault is reported at a place of the text.
- Theorem `Sheet.parse_positions`: declarations and faults are reported where they stand in
  the text, although it is read with its comments settled.
-/

namespace VendorPrefixing

namespace Position

variable {s : List Char} {j k : Nat} {p : Position}

/-- The line and the column of the character behind `k` others. -/
def ofOffset (s : List Char) (k : Nat) : Position where
  line := 1 + (s.take k).count '\n'
  column := 1 + ((s.take k).reverse.takeWhile (· ≠ '\n')).length

theorem afterText_start (s : List Char) :
    start.afterText s =
      ⟨1 + s.count '\n', 1 + (s.reverse.takeWhile (· ≠ '\n')).length⟩ := by
  induction s using List.reverseRecOn with
  | nil => rfl
  | append_singleton s c ih =>
    rw [afterText_append, ih, afterText_cons, afterText_nil, after, List.reverse_append]
    split
    · rename_i hc
      simp [hc, Nat.add_assoc]
    · rename_i hc
      simp [hc, Nat.add_assoc, Nat.add_comm 1]

/-- Counting along a text leads to the line and the column. -/
theorem ofOffset_eq (s : List Char) (k : Nat) : ofOffset s k = start.afterText (s.take k) :=
  (afterText_start (s.take k)).symm

theorem line_afterText (p : Position) (s : List Char) :
    (p.afterText s).line = p.line + s.count '\n' := by
  induction s generalizing p with
  | nil => rfl
  | cons c s ih =>
    rw [afterText_cons, ih, after]
    split
    · rename_i hc
      simp [hc, Nat.add_assoc, Nat.add_comm 1]
    · rename_i hc
      simp [hc]

/-- Text that is passed without moving is empty. -/
theorem eq_nil_of_afterText_eq (h : p.afterText s = p) : s = [] := by
  have hline := line_afterText p s
  rw [h] at hline
  have hfeed : '\n' ∉ s := List.count_eq_zero.mp (by omega)
  rw [afterText_of_no_lineFeed hfeed] at h
  have hcolumn := congrArg column h
  exact List.eq_nil_of_length_eq_zero (by simpa using hcolumn)

theorem le_of_ofOffset_eq (hj : j ≤ s.length) (h : ofOffset s j = ofOffset s k) : j ≤ k := by
  by_contra hlt
  have hsplit := (List.take_append_drop k (s.take j)).symm
  rw [List.take_take, Nat.min_eq_left (by omega)] at hsplit
  rw [ofOffset_eq, ofOffset_eq, hsplit, afterText_append] at h
  have hnil := congrArg List.length (eq_nil_of_afterText_eq h)
  rw [List.length_drop, List.length_take_of_le hj, List.length_nil] at hnil
  omega

/-- A position names one place of a text. -/
theorem ofOffset_injective (hj : j ≤ s.length) (hk : k ≤ s.length) :
    ofOffset s j = ofOffset s k ↔ j = k :=
  ⟨fun h => Nat.le_antisymm (le_of_ofOffset_eq hj h) (le_of_ofOffset_eq hk h.symm),
    fun h => h ▸ rfl⟩

/-- A text with line feeds at the same places has the same positions. -/
theorem ofOffset_congr {t : List Char} (hlength : t.length = s.length)
    (h : ∀ i : Nat, t[i]? = some '\n' ↔ s[i]? = some '\n') (k : Nat) :
    ofOffset t k = ofOffset s k := by
  rw [ofOffset_eq, ofOffset_eq]
  induction k with
  | zero => rfl
  | succ k ih =>
    rw [List.take_add_one, List.take_add_one, afterText_append, afterText_append, ih]
    have hfeed := h k
    by_cases hk : k < s.length
    · rw [List.getElem?_eq_getElem hk, List.getElem?_eq_getElem (hlength ▸ hk),
        Option.some_inj, Option.some_inj] at hfeed
      rw [List.getElem?_eq_getElem hk, List.getElem?_eq_getElem (hlength ▸ hk)]
      simp only [Option.toList_some, afterText_cons, afterText_nil, after, hfeed]
    · rw [List.getElem?_eq_none (by omega), List.getElem?_eq_none (by omega)]

/-- A position is the one of a character of a text or of its end. -/
def IsOn (p : Position) (s : List Char) : Prop :=
  ∃ k ≤ s.length, p = ofOffset s k

end Position

/-- A cursor stands somewhere in a text. -/
def Cursor.IsIn (c : Cursor) (s : List Char) : Prop :=
  ∃ front, (Cursor.ofText s).Passes front c

variable {s t : List Char} {c c' : Cursor} {k : Stretch} {e e' : SyntaxError} {head : Block}
  {r r' : Reading}

namespace Cursor.IsIn

theorem passes (hc : c.IsIn s) (h : c.Passes t c') : c'.IsIn s := by
  obtain ⟨front, hfront⟩ := hc
  exact ⟨front ++ t, hfront.trans h⟩

theorem advance (hc : c.IsIn s) (n : Nat) : (c.advance n).IsIn s :=
  hc.passes (c.passes_advance n)

theorem skipBlanks (hc : c.IsIn s) : c.skipBlanks.IsIn s :=
  hc.advance _

theorem stretch (hc : c.IsIn s) (h : c.stretch k = .ok (t, c')) : c'.IsIn s := by
  obtain ⟨_, hpasses, -⟩ := exists_fills_of_stretch h
  exact hc.passes hpasses

theorem exists_offset (hc : c.IsIn s) :
    ∃ n ≤ s.length, c.position = .ofOffset s n ∧ c.rest = s.drop n := by
  obtain ⟨front, hrest, hposition⟩ := hc
  obtain rfl : s = front ++ c.rest := hrest
  refine ⟨front.length, by simp, ?_, by simp⟩
  rw [hposition, Position.ofOffset_eq, List.take_left]
  rfl

theorem isOn (hc : c.IsIn s) : c.position.IsOn s := by
  obtain ⟨n, hn, hposition, -⟩ := hc.exists_offset
  exact ⟨n, hn, hposition⟩

end Cursor.IsIn

/-! ## Faults -/

theorem Cursor.isOn_of_stretch (hc : c.IsIn s) (h : c.stretch k = .error e) :
    e.position.IsOn s := by
  rw [stretch] at h
  split at h
  · cases h
  · rename_i open? _
    cases h
    cases open? with
    | string n | comment n => exact (hc.advance n).isOn

namespace Item

variable {content : Content} {start : Position}

theorem isOn_of_openBlock (he : e'.position.IsOn s) (h : openBlock c head e' = .error e) :
    e.position.IsOn s := by
  rw [openBlock] at h
  split at h
  · cases h
  · cases h
    exact he

theorem isOn_of_comment (hc : c.IsIn s) (h : comment c = .error e) : e.position.IsOn s := by
  rw [comment] at h
  split at h
  · cases h
  · cases h
    exact hc.isOn

theorem isOn_of_declaration (hc : c.IsIn s) (h : declaration c = .error e) :
    e.position.IsOn s := by
  rw [declaration] at h
  split at h
  · cases h
    exact hc.isOn
  · have hcolon := (hc.advance (c.rest.takeWhile isPropertyChar).length).skipBlanks
    dsimp only at h
    split at h
    · split at h
      · cases h
      · rename_i hs
        cases h
        exact Cursor.isOn_of_stretch (hcolon.advance 1) hs
    · cases h
      exact hcolon.isOn

theorem isOn_of_rule (hc : c.IsIn s) (h : rule c = .error e) : e.position.IsOn s := by
  rw [rule] at h
  split at h
  · rename_i hs
    exact isOn_of_openBlock (hc.stretch hs).isOn h
  · rename_i hs
    cases h
    exact Cursor.isOn_of_stretch hc hs

theorem isOn_of_frame (hc : c.IsIn s) (h : frame c = .error e) : e.position.IsOn s := by
  rw [frame] at h
  split at h
  · rename_i hs
    exact isOn_of_openBlock (hc.stretch hs).isOn h
  · rename_i hs
    cases h
    exact Cursor.isOn_of_stretch hc hs

theorem isOn_of_afterKeyword {keyword : AtKeyword} (hstart : start.IsOn s) (hc : c.IsIn s)
    (h : afterKeyword start keyword c = .error e) : e.position.IsOn s := by
  rw [afterKeyword] at h
  split at h
  · rename_i hs
    cases h
    exact Cursor.isOn_of_stretch hc hs
  · rename_i after hs
    have hafter := (hc.stretch hs).isOn
    cases keyword with
    | statement kind =>
      dsimp only at h
      split at h
      · cases h
      · cases h
        exact hafter
    | other name => exact isOn_of_openBlock hstart h
    | _ => exact isOn_of_openBlock hafter h

theorem isOn_of_atRule (hc : c.IsIn s) (h : atRule c = .error e) : e.position.IsOn s := by
  rw [atRule] at h
  split at h
  · cases h
    exact hc.isOn
  · exact isOn_of_afterKeyword hc.isOn (hc.advance _) h

/-- Every fault of an item is reported at a place of the text. -/
theorem isOn_of_read (hc : c.IsIn s) (h : read content c = .error e) : e.position.IsOn s := by
  unfold read at h
  split at h
  · exact isOn_of_comment hc h
  · cases content with
    | rules =>
      dsimp only at h
      split at h
      · exact isOn_of_atRule hc h
      · exact isOn_of_rule hc h
    | frames => exact isOn_of_frame hc h
    | declarations => exact isOn_of_declaration hc h

/-- The brace of a block stands where the text before it ends. -/
theorem Written.exists_brace {p brace : Position} {rest : List Char}
    (h : Written p rest content t (.opening head brace)) :
    ∃ front back, t = front ++ back ∧ brace = p.afterText front := by
  cases h with
  | rule => exact ⟨_, _, rfl, rfl⟩
  | frame => exact ⟨_, _, rfl, rfl⟩
  | @block name text => exact ⟨'@' :: (name ++ text), ['{'], by simp, rfl⟩

end Item

namespace Reading

/-- A reading goes on at a place of a text, and its open blocks begin there. -/
structure IsIn (r : Reading) (s : List Char) : Prop where
  cursor : r.cursor.IsIn s
  braces : ∀ o ∈ r.stack, o.brace.IsOn s

theorem isIn_ofText (s : List Char) : (ofText s).IsIn s :=
  ⟨⟨[], rfl, rfl⟩, List.forall_mem_nil _⟩

theorem IsIn.move (hr : r.IsIn s) (h : r.Moves r') : r'.IsIn s := by
  obtain ⟨t, ht⟩ := h.exists_passes
  have hcursor := hr.cursor.passes ht
  cases h with
  | close => exact ⟨hcursor, (List.forall_mem_cons.mp hr.braces).2⟩
  | semicolon | leaf => exact ⟨hcursor, hr.braces⟩
  | opening hgap hfront hstart hpasses hitem =>
    obtain ⟨front, back, rfl, rfl⟩ := hitem.exists_brace
    obtain ⟨b, hb, -⟩ := hpasses.exists_middle
    rw [← hb.position_eq]
    exact ⟨hcursor,
      List.forall_mem_cons.mpr ⟨((hr.cursor.passes hfront).passes hb).isOn, hr.braces⟩⟩

/-- A step fails at a place of the text or where a block was opened. -/
theorem isOn_of_step (hr : r.IsIn s) (h : r.step = .error e) : e.position.IsOn s := by
  obtain ⟨gap, -, hfront, hstep, hend | ⟨c', hc'⟩ | ⟨c', hc'⟩ | hstart⟩ := r.step_cases
  · rw [hstep, step_of_nil _ _ hend] at h
    split at h
    · cases h
    · rename_i o stack hstack
      cases h
      exact hr.braces o (hstack ▸ List.mem_cons_self)
  · obtain ⟨stack, nodes, c⟩ := r
    cases stack with
    | nil =>
      rw [hstep, step_of_stray nodes hc'] at h
      cases h
      exact (hr.cursor.passes hfront).isOn
    | cons o stack =>
      rw [hstep, step_of_close o stack nodes hc'] at h
      cases h
  · rw [hstep, step_of_semicolon _ _ hc'] at h
    cases h
  · rw [hstep, step_of_startsItem _ _ _ hstart] at h
    split at h
    · cases h
    · cases h
    · rename_i hread
      cases h
      exact Item.isOn_of_read (hr.cursor.passes hfront) hread

/-- A fault is reported at a place of the text. -/
theorem isOn_of_run (hr : r.IsIn s) (h : r.run = .error e) : e.position.IsOn s := by
  fun_induction run r with
  | case1 r nodes hstep => cases h
  | case2 r r' hstep ih => exact ih (hr.move (moves_of_step hstep)) h
  | case3 r e' hstep =>
    cases h
    exact isOn_of_step hr hstep

end Reading

/-! ## Declarations -/

/-- A declaration is reported at the one place of a text with its position, and its
property begins there. -/
def Declaration.IsLocatedIn (d : Declaration) (s : List Char) : Prop :=
  ∃ k ≤ s.length, (∀ j ≤ s.length, Position.ofOffset s j = d.position ↔ j = k) ∧
    d.property.toList <+: s.drop k

theorem Item.Written.property {p : Position} {rest : List Char} {content : Content}
    {d : Declaration} (h : Written p rest content t (.leaf (.declaration d))) :
    d.position = p ∧ d.property.toList <+: t ∧ ' ' ∉ d.property.toList := by
  cases h with
  | declaration _ _ hchars =>
    rw [String.toList_ofList]
    exact ⟨rfl, List.prefix_append _ _, fun hblank => absurd (hchars _ hblank) (by decide)⟩

/-- Declarations that are read from settled comments stand in the text that was given. -/
theorem Reading.isLocatedIn_of_run {nodes : List Node} {d : Declaration}
    (hlength : (Chars.settle s).length = s.length)
    (h : (ofText (Chars.settle s)).run = .ok nodes)
    (hd : .declaration d ∈ Node.leavesAll nodes) : d.IsLocatedIn s := by
  have hleaves : (ofText (Chars.settle s)).HasLeaves
      (fun l => ∀ d, l = .declaration d → d.IsLocatedIn s) (·.IsIn (Chars.settle s)) :=
    ⟨(isIn_ofText _).cursor, List.forall_mem_nil _, List.forall_mem_nil _⟩
  refine forall_leaves_of_run hleaves h (fun _ _ _ hpasses hc => hc.passes hpasses) ?_ _ hd d rfl
  rintro c t c' content _ hc hpasses hitem d rfl
  obtain ⟨k, hk, hposition, hrest⟩ := hc.exists_offset
  obtain ⟨hd, hproperty, hblank⟩ := hitem.property
  have hprefix : d.property.toList <+: (Chars.settle s).drop k := by
    rw [← hrest, hpasses.rest_eq]
    exact hproperty.trans (List.prefix_append _ _)
  rw [hlength] at hk
  rw [Position.ofOffset_congr hlength (Chars.settle_lineFeed hlength)] at hposition
  refine ⟨k, hk, fun j hj => ?_, Chars.isPrefix_of_settle hlength hblank hprefix⟩
  rw [hd, hposition, Position.ofOffset_injective hj hk]

namespace Sheet

/-- Declarations and faults are reported where they stand in the text that was given, if
settling its comments cuts nothing out.  Only comments are changed by that, as long as no
backslash outside of them and of strings protects a quote or the slash of an opening mark;
the places of the line feeds stay the same in any case. -/
theorem parse_positions {css : String} (file : String)
    (hlength : (Text.settleComments css).length = css.length) :
    (∀ k : Nat, (Text.settleComments css).toList[k]? ≠ css.toList[k]? →
      InComment false css.toList k ∧ (EscapesNoMark css.toList → InComment true css.toList k)) ∧
    (∀ k : Nat, (Text.settleComments css).toList[k]? = some '\n' ↔
      css.toList[k]? = some '\n') ∧
    (∀ n, parse file css = .ok n → ∀ d, .declaration d ∈ n.leaves → d.IsLocatedIn css.toList) ∧
    ∀ f, parse file css = .error f → ∃ p reason, Position.IsOn p css.toList ∧
      f = .stylesheet file p.line p.column reason css := by
  have hsettle : (Text.settleComments css).toList = Chars.settle css.toList :=
    String.toList_ofList
  replace hlength : (Chars.settle css.toList).length = css.toList.length := by
    rw [← hsettle, String.length_toList, String.length_toList, hlength]
  rw [hsettle]
  refine ⟨fun k hk => ?_, Chars.settle_lineFeed hlength, fun n hn d hd => ?_, fun f hf => ?_⟩
  · obtain heq | ⟨-, -, hin⟩ := Chars.settle_cases hlength k
    · exact absurd heq hk
    · exact ⟨hin, hin.escaping⟩
  · rw [parse] at hn
    split at hn
    · rename_i nodes hrun
      cases hn
      exact Reading.isLocatedIn_of_run hlength hrun hd
    · cases hn
  · rw [parse] at hf
    split at hf
    · cases hf
    · rename_i e hrun
      cases hf
      obtain ⟨k, hk, hposition⟩ := Reading.isOn_of_run (Reading.isIn_ofText _) hrun
      rw [Position.ofOffset_congr hlength (Chars.settle_lineFeed hlength)] at hposition
      exact ⟨e.position, _, ⟨k, hlength ▸ hk, hposition⟩, rfl⟩

/-- A text with a comment in front of a brace. -/
def commentedText : String :=
  "a/**/\x7bb:c\x7d"

theorem exists_parse_commentedText : ∃ n d, parse unnamed commentedText = .ok n ∧
    .declaration d ∈ n.leaves ∧ d.property = "b" := by
  have hrun : ∃ nodes d, (Reading.ofText (Chars.settle commentedText.toList)).run = .ok nodes ∧
      .declaration d ∈ Node.leavesAll nodes ∧ d.property = "b" := by
    rw [Reading.run_of_more rfl, Reading.run_of_more rfl, Reading.run_of_more rfl, Reading.run_eq]
    exact ⟨_, _, rfl, List.mem_singleton.mpr rfl, rfl⟩
  obtain ⟨nodes, d, hrun, hd, hproperty⟩ := hrun
  exact ⟨.block .sheet nodes, d, by rw [parse, hrun], hd, hproperty⟩

theorem parse_positions_commentedText :
    (Text.settleComments commentedText).length = commentedText.length ∧
      (Text.settleComments commentedText).toList[2]? ≠ commentedText.toList[2]? ∧
      InComment true commentedText.toList 2 ∧
      ∃ n d, parse unnamed commentedText = .ok n ∧ .declaration d ∈ n.leaves ∧
        d.property = "b" ∧ d.IsLocatedIn commentedText.toList := by
  have hlength : (Text.settleComments commentedText).length = commentedText.length := by
    decide
  have hchanged : (Text.settleComments commentedText).toList[2]? ≠ commentedText.toList[2]? := by
    decide
  have hescapes : EscapesNoMark commentedText.toList := fun front c rest htext _ =>
    absurd (htext ▸ List.mem_append_right front List.mem_cons_self) (by decide)
  obtain ⟨hcomments, -, hdeclarations, -⟩ := parse_positions unnamed hlength
  obtain ⟨n, d, hn, hd, hproperty⟩ := exists_parse_commentedText
  exact ⟨hlength, hchanged, (hcomments 2 hchanged).2 hescapes, n, d, hn, hd, hproperty,
    hdeclarations n hn d hd⟩

/-- A text with a quote that a backslash protects, and with a string that reads like a
comment in part. -/
def protectedText : String :=
  ".a\\'b\x7bc:'\x7b/*d*/'\x7d"

/-- The string in the text is changed, although nothing is cut out of it. -/
theorem settleComments_protectedText :
    (Text.settleComments protectedText).length = protectedText.length ∧
      ∃ k : Nat, (Text.settleComments protectedText).toList[k]? ≠ protectedText.toList[k]? ∧
        ¬ InComment true protectedText.toList k := by
  refine ⟨by decide, 10, by decide, ?_⟩
  rintro ⟨front, t, rest, htext, hfront, ⟨text, -, rfl⟩, hle, -⟩
  have hplain : ∀ n ≤ 10, ['/', '*'].isPrefixOf (protectedText.toList.drop n) = true →
      StretchPlace.plain.through 0 (protectedText.toList.take n)
        (protectedText.toList.drop n) ≠ .plain := by
    decide
  refine hplain front.length hle ?_ ?_
  · rw [htext, List.drop_left]
    rfl
  · rw [htext, List.drop_left, List.take_left]
    exact hfront.through_eq_plain 0

end Sheet
end VendorPrefixing
