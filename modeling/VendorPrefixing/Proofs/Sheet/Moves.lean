import VendorPrefixing.Proofs.Sheet.Written

/-!
# How the parser moves

A step of the parser passes white space and then a closing brace, a semicolon or an
item.  A reading that succeeds is a row of such moves up to white space outside of all
blocks.

Main results:

- Theorem `Reading.step_eq_more_iff`: the steps are the moves.
- Theorem `Reading.induction_of_run`: what holds at the end of a text and is handed back
  by every move holds from the beginning.
- Theorem `Reading.ne_nil_of_run`: a text does not end inside of a block.
-/

namespace VendorPrefixing

/-- What the blocks around a place make of the text there, innermost block first. -/
def contentWithin : List OpenBlock → Content
  | [] => .rules
  | o :: _ => o.head.content

/-- An item can begin with this text. -/
def StartsItem (s : List Char) : Prop :=
  ∃ c, s.head? = some c ∧ isBlank c = false ∧ c ∉ [';', '}']

namespace Reading

variable {r r' : Reading} {nodes : List Node} {stack : List OpenBlock} {p : Position}
  {s t gap : List Char} {c c' : Cursor}

theorem content_eq (r : Reading) : r.content = contentWithin r.stack := by
  rw [content]
  cases r.stack <;> rfl

/-- One move of the parser. -/
inductive Moves : Reading → Reading → Prop
  | close {o : OpenBlock} {stack : List OpenBlock} {nodes : List Node} {c c' : Cursor}
    {gap : List Char} (hgap : AllBlank gap) (hpasses : c.Passes (gap ++ ['}']) c') :
    Moves ⟨o :: stack, nodes, c⟩ ⟨stack, .block o.head nodes.reverse :: o.before, c'⟩
  | semicolon {stack : List OpenBlock} {nodes : List Node} {c c' : Cursor}
    {gap : List Char} (hgap : AllBlank gap) (hpasses : c.Passes (gap ++ [';']) c') :
    Moves ⟨stack, nodes, c⟩ ⟨stack, nodes, c'⟩
  | leaf {stack : List OpenBlock} {nodes : List Node} {c b c' : Cursor} {gap s : List Char}
    {l : Leaf} (hgap : AllBlank gap) (hfront : c.Passes gap b) (hstart : StartsItem b.rest)
    (hpasses : b.Passes s c')
    (hitem : Item.Written b.position c'.rest (contentWithin stack) s (.leaf l)) :
    Moves ⟨stack, nodes, c⟩ ⟨stack, .leaf l :: nodes, c'⟩
  | opening {stack : List OpenBlock} {nodes : List Node} {c b c' : Cursor}
    {gap s : List Char} {head : Block} {brace : Position} (hgap : AllBlank gap)
    (hfront : c.Passes gap b) (hstart : StartsItem b.rest) (hpasses : b.Passes s c')
    (hitem : Item.Written b.position c'.rest (contentWithin stack) s (.opening head brace)) :
    Moves ⟨stack, nodes, c⟩ ⟨⟨head, brace, nodes⟩ :: stack, [], c'⟩

/-- A move passes some of the text. -/
theorem Moves.exists_passes (h : r.Moves r') : ∃ s, r.cursor.Passes s r'.cursor := by
  cases h with
  | close _ hpasses | semicolon _ hpasses => exact ⟨_, hpasses⟩
  | leaf _ hfront _ hpasses | opening _ hfront _ hpasses => exact ⟨_, hfront.trans hpasses⟩

/-! ## Single steps -/

/-- A run begins with a step. -/
theorem run_eq (r : Reading) :
    r.run =
      match r.step with
      | .ok (.done nodes) => .ok nodes
      | .ok (.more r') => r'.run
      | .error e => .error e := by
  rw [run]
  split <;> rename_i h <;> rw [h]

theorem run_of_more (h : r.step = .ok (.more r')) : r.run = r'.run := by
  rw [run_eq, h]

theorem run_congr (h : r.step = r'.step) : r.run = r'.run := by
  rw [run_eq, h, ← run_eq]

/-- White space in front of a text makes no difference. -/
theorem run_append_of_allBlank {front : List Char} (h : AllBlank front) (p : Position)
    (s : List Char) :
    (mk stack nodes ⟨p, front ++ s⟩).run = (mk stack nodes ⟨p.afterText front, s⟩).run := by
  refine run_congr ?_
  rw [step, step]
  dsimp only
  rw [Cursor.skipBlanks_append h]
  rfl

/-- A semicolon between items makes no difference. -/
theorem run_skip_semicolon (c : Cursor) :
    (mk stack nodes (c.skip ';')).run = (mk stack nodes c).run := by
  rw [Cursor.skip]
  split
  · rename_i hsees
    obtain ⟨p, s⟩ := c
    cases s with
    | nil => cases hsees
    | cons d s =>
      obtain rfl : d = ';' := by simpa [Cursor.sees] using hsees
      refine (run_of_more ?_).symm
      rw [step, Cursor.skipBlanks_of_not_isBlank (c := ';') rfl rfl]
      rfl
  · rfl

theorem step_of_startsItem (stack : List OpenBlock) (nodes : List Node) (p : Position)
    (hs : StartsItem s) :
    (mk stack nodes ⟨p, s⟩).step =
      match Item.read (contentWithin stack) ⟨p, s⟩ with
      | .ok (.leaf l, after) => .ok (.more ⟨stack, .leaf l :: nodes, after⟩)
      | .ok (.opening head brace, after) =>
        .ok (.more ⟨⟨head, brace, nodes⟩ :: stack, [], after⟩)
      | .error e => .error e := by
  obtain ⟨c, hhead, hblank, hc⟩ := hs
  rw [step, Cursor.skipBlanks_of_not_isBlank hhead hblank, content_eq]
  dsimp only
  split
  · cases hhead
  · cases hhead
    exact absurd hc (by decide)
  · cases hhead
    exact absurd hc (by decide)
  · rfl

/-- White space in front of a text makes no difference to a step. -/
theorem step_eq_of_passes (hgap : AllBlank gap) (hpasses : c.Passes gap c') :
    (mk stack nodes c).step = (mk stack nodes c').step := by
  rw [step, step]
  dsimp only
  rw [hpasses.eq.1, Cursor.skipBlanks_append hgap, ← hpasses.eq.2]
  rfl

theorem step_of_close (o : OpenBlock) (stack : List OpenBlock) (nodes : List Node)
    (hc : c.Passes ['}'] c') :
    (mk (o :: stack) nodes c).step =
      .ok (.more ⟨stack, .block o.head nodes.reverse :: o.before, c'⟩) := by
  rw [hc.eq.1, hc.eq.2, step, Cursor.skipBlanks_of_not_isBlank (c := '}') rfl rfl]
  rfl

theorem step_of_semicolon (stack : List OpenBlock) (nodes : List Node)
    (hc : c.Passes [';'] c') : (mk stack nodes c).step = .ok (.more ⟨stack, nodes, c'⟩) := by
  rw [hc.eq.1, hc.eq.2, step, Cursor.skipBlanks_of_not_isBlank (c := ';') rfl rfl]
  rfl

theorem step_of_stray (nodes : List Node) (hc : c.Passes ['}'] c') :
    (mk [] nodes c).step = .error ⟨c.position, .strayBrace⟩ := by
  rw [hc.eq.1, step, Cursor.skipBlanks_of_not_isBlank (c := '}') rfl rfl]
  rfl

theorem step_of_nil (stack : List OpenBlock) (nodes : List Node) (hrest : c.rest = []) :
    (mk stack nodes c).step =
      match stack with
      | [] => .ok (.done nodes.reverse)
      | o :: _ => .error ⟨o.brace, .openBlock⟩ := by
  have hblanks : c.skipBlanks.rest = [] := by
    rw [Cursor.rest_skipBlanks, hrest]
    rfl
  cases stack with
  | nil => rw [step, hblanks]
  | cons o stack => rw [step, hblanks]

/-- What a step leads to is told by what stands behind the white space. -/
theorem step_cases (r : Reading) : ∃ gap, AllBlank gap ∧
    r.cursor.Passes gap r.cursor.skipBlanks ∧
    r.step = (mk r.stack r.nodes r.cursor.skipBlanks).step ∧
    (r.cursor.skipBlanks.rest = [] ∨
      (∃ c', r.cursor.skipBlanks.Passes ['}'] c') ∨
      (∃ c', r.cursor.skipBlanks.Passes [';'] c') ∨ StartsItem r.cursor.skipBlanks.rest) := by
  obtain ⟨gap, hgap, hfront⟩ := r.cursor.passes_skipBlanks
  refine ⟨gap, hgap, hfront, step_eq_of_passes hgap hfront, ?_⟩
  have hpasses : ∀ {d t}, r.cursor.skipBlanks.rest = d :: t →
      ∃ c', r.cursor.skipBlanks.Passes [d] c' := fun heq =>
    ⟨_, Cursor.passes_advance_one (Cursor.sees_iff.mpr ⟨_, heq⟩)⟩
  cases hrest : r.cursor.skipBlanks.rest with
  | nil => exact .inl rfl
  | cons d t =>
    by_cases hclose : d = '}'
    · exact .inr (.inl (hpasses (hclose ▸ hrest)))
    · by_cases hsemicolon : d = ';'
      · exact .inr (.inr (.inl (hpasses (hsemicolon ▸ hrest))))
      · refine .inr (.inr (.inr ⟨d, rfl, ?_, by simp [hclose, hsemicolon]⟩))
        refine Chars.isBlank_of_head?_trimStart (s := r.cursor.rest) ?_
        rw [← Cursor.rest_skipBlanks, hrest]
        rfl

theorem moves_of_step (h : r.step = .ok (.more r')) : r.Moves r' := by
  obtain ⟨gap, hgap, hfront, hstep, hend | ⟨c', hc'⟩ | ⟨c', hc'⟩ | hstart⟩ := r.step_cases
  · rw [hstep, step_of_nil _ _ hend] at h
    split at h <;> cases h
  · obtain ⟨stack, nodes, c⟩ := r
    cases stack with
    | nil =>
      rw [hstep, step_of_stray nodes hc'] at h
      cases h
    | cons o stack =>
      rw [hstep, step_of_close o stack nodes hc'] at h
      cases h
      exact .close hgap (hfront.trans hc')
  · rw [hstep, step_of_semicolon _ _ hc'] at h
    cases h
    exact .semicolon hgap (hfront.trans hc')
  · rw [hstep, step_of_startsItem _ _ _ hstart] at h
    split at h
    · rename_i l after hread
      cases h
      obtain ⟨s, hpasses, hitem⟩ := Item.written_of_read hread
      exact .leaf hgap hfront hstart hpasses hitem
    · rename_i head brace after hread
      cases h
      obtain ⟨s, hpasses, hitem⟩ := Item.written_of_read hread
      exact .opening hgap hfront hstart hpasses hitem
    · cases h

theorem step_of_moves (h : r.Moves r') : r.step = .ok (.more r') := by
  cases h with
  | @close o stack nodes c c' gap hgap hpasses =>
    obtain ⟨b, hfront, hend⟩ := hpasses.exists_middle
    rw [step_eq_of_passes hgap hfront, step_of_close o stack nodes hend]
  | @semicolon stack nodes c c' gap hgap hpasses =>
    obtain ⟨b, hfront, hend⟩ := hpasses.exists_middle
    rw [step_eq_of_passes hgap hfront, step_of_semicolon stack nodes hend]
  | @leaf stack nodes c b c' gap s l hgap hfront hstart hpasses hitem =>
    rw [step_eq_of_passes hgap hfront, step_of_startsItem _ _ _ hstart,
      Item.read_eq_ok_iff.mpr ⟨s, hpasses, hitem⟩]
  | @opening stack nodes c b c' gap s head brace hgap hfront hstart hpasses hitem =>
    rw [step_eq_of_passes hgap hfront, step_of_startsItem _ _ _ hstart,
      Item.read_eq_ok_iff.mpr ⟨s, hpasses, hitem⟩]

/-- The steps are the moves. -/
theorem step_eq_more_iff : r.step = .ok (.more r') ↔ r.Moves r' :=
  ⟨moves_of_step, step_of_moves⟩

/-- A style sheet is read when nothing but white space is left outside of all blocks. -/
theorem step_eq_done_iff : r.step = .ok (.done nodes) ↔
    r.stack = [] ∧ AllBlank r.cursor.rest ∧ r.nodes.reverse = nodes := by
  constructor
  · intro h
    obtain ⟨gap, hgap, hfront, hstep, hend | ⟨c', hc'⟩ | ⟨c', hc'⟩ | hstart⟩ := r.step_cases
    · rw [hstep, step_of_nil _ _ hend] at h
      split at h
      · rename_i hstack
        cases h
        refine ⟨hstack, ?_, rfl⟩
        rwa [hfront.rest_eq, hend, List.append_nil]
      · cases h
    · obtain ⟨stack, nodes, c⟩ := r
      cases stack with
      | nil =>
        rw [hstep, step_of_stray nodes hc'] at h
        cases h
      | cons o stack =>
        rw [hstep, step_of_close o stack nodes hc'] at h
        cases h
    · rw [hstep, step_of_semicolon _ _ hc'] at h
      cases h
    · rw [hstep, step_of_startsItem _ _ _ hstart] at h
      split at h <;> cases h
  · obtain ⟨stack, nodes', c⟩ := r
    rintro ⟨rfl, hblank, rfl⟩
    have hpasses := Cursor.passes_mk c.position c.rest []
    rw [List.append_nil] at hpasses
    rw [step_eq_of_passes hblank hpasses, step_of_nil _ _ rfl]

/-! ## Runs -/

/-- What holds at the end of a text and is handed back by every move holds from the
beginning. -/
theorem induction_of_run {motive : Reading → Prop} (h : r.run = .ok nodes)
    (hdone : ∀ r : Reading, r.stack = [] → AllBlank r.cursor.rest → r.nodes.reverse = nodes →
      motive r)
    (hmove : ∀ r r' : Reading, r.Moves r' → r'.run = .ok nodes → motive r' → motive r) :
    motive r := by
  fun_induction run r with
  | case1 r nodes' hstep =>
    cases h
    obtain ⟨hstack, hblank, hnodes⟩ := step_eq_done_iff.mp hstep
    exact hdone r hstack hblank hnodes
  | case2 r r' hstep ih => exact hmove r r' (moves_of_step hstep) h (ih h)
  | case3 r e hstep => cases h

/-- A text does not end inside of a block. -/
theorem ne_nil_of_run (h : r.run = .ok nodes) (hstack : r.stack ≠ []) : r.cursor.rest ≠ [] := by
  intro hrest
  have hblanks : r.cursor.skipBlanks.rest = [] := by
    rw [Cursor.rest_skipBlanks, hrest]
    rfl
  have hstep : ∃ e, r.step = .error e := by
    rw [step, hblanks]
    cases hs : r.stack with
    | nil => exact absurd hs hstack
    | cons o stack => exact ⟨_, rfl⟩
  obtain ⟨e, hstep⟩ := hstep
  rw [run_eq, hstep] at h
  cases h

end Reading

namespace Sheet

/-- A text without comments is read as it is. -/
theorem parse_eq_ok_iff {file css : String} {nodes : List Node}
    (hcss : IsCommentFree css.toList) :
    parse file css = .ok (.block .sheet nodes) ↔
      (Reading.ofText css.toList).run = .ok nodes := by
  rw [parse, Chars.settle_eq_self hcss]
  split
  · rename_i nodes' hrun
    rw [hrun]
    simp
  · rename_i e hrun
    rw [hrun]
    exact iff_of_false (by simp) (by simp)

end Sheet
end VendorPrefixing
