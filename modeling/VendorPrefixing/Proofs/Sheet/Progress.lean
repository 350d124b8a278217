import VendorPrefixing.Proofs.Sheet.Moves

/-!
# Reading comes to an end

Every step of the parser ends the reading or passes some text.  It goes into a block only
behind the opening brace and leaves it only behind the closing one, so the blocks around
the cursor are told by the text that has been passed.  A reading is therefore a row of at
most as many steps as the text has characters.

Main results:

- Theorem `Reading.exists_advances`: a step that is not the last passes some text.
- Theorem `Reading.exists_steps`: every reading is a row of steps up to its end.
- Theorem `Sheet.parse_finishes`: reading a text passes all of it or fails with the text
  as it was given.
-/

namespace VendorPrefixing

/-- The brace that opens a block is the last character of its head. -/
theorem Item.Written.getLast?_opening {p brace : Position} {rest s : List Char}
    {content : Content} {head : Block}
    (h : Item.Written p rest content s (.opening head brace)) : s.getLast? = some '{' := by
  cases h with
  | rule | frame => exact List.getLast?_concat
  | @block name text =>
    rw [← List.append_assoc, ← List.cons_append]
    exact List.getLast?_concat

namespace Reading

variable {r r' last : Reading} {s : List Char} {pieces : List (List Char)} {nodes : List Node}

/-! ## One step -/

/-- A step that passes the text `s`. -/
structure Advances (r : Reading) (s : List Char) (r' : Reading) : Prop where
  step_eq : r.step = .ok (.more r')
  passes : r.cursor.Passes s r'.cursor
  ne_nil : s ≠ []
  /-- The step stays in the innermost block, goes into a block or leaves one. -/
  stack_cases : r'.stack = r.stack ∨
    (∃ o, r'.stack = o :: r.stack ∧ s.getLast? = some '{') ∨
      ∃ o, r.stack = o :: r'.stack ∧ s.getLast? = some '}'

/-- What a move passes tells which block it leads to. -/
theorem Moves.exists_stack_cases (h : r.Moves r') : ∃ s, r.cursor.Passes s r'.cursor ∧
    (r'.stack = r.stack ∨ (∃ o, r'.stack = o :: r.stack ∧ s.getLast? = some '{') ∨
      ∃ o, r.stack = o :: r'.stack ∧ s.getLast? = some '}') := by
  cases h with
  | close _ hpasses => exact ⟨_, hpasses, .inr (.inr ⟨_, rfl, List.getLast?_concat⟩)⟩
  | semicolon _ hpasses => exact ⟨_, hpasses, .inl rfl⟩
  | leaf _ hfront _ hpasses => exact ⟨_, hfront.trans hpasses, .inl rfl⟩
  | opening _ hfront _ hpasses hitem =>
    refine ⟨_, hfront.trans hpasses, .inr (.inl ⟨_, rfl, ?_⟩)⟩
    rw [List.getLast?_append, hitem.getLast?_opening, Option.some_or]

/-- A step that is not the last passes some text. -/
theorem exists_advances (h : r.step = .ok (.more r')) : ∃ s, r.Advances s r' := by
  obtain ⟨s, hpasses, hstack⟩ := (moves_of_step h).exists_stack_cases
  refine ⟨s, h, hpasses, ?_, hstack⟩
  rintro rfl
  have hlt := length_step_lt h
  rw [hpasses.rest_eq, List.nil_append] at hlt
  exact absurd hlt (Nat.lt_irrefl _)

/-! ## Rows of steps -/

/-- A row of steps that pass the texts `pieces` one after the other. -/
inductive Steps : Reading → List (List Char) → Reading → Prop
  | nil {r : Reading} : Steps r [] r
  | cons {r r' last : Reading} {s : List Char} {pieces : List (List Char)} :
    r.Advances s r' → Steps r' pieces last → Steps r (s :: pieces) last

namespace Steps

theorem passes (h : Steps r pieces last) : r.cursor.Passes pieces.flatten last.cursor := by
  induction h with
  | nil => exact ⟨rfl, rfl⟩
  | cons hstep _ ih => exact hstep.passes.trans ih

/-- A row has at most as many steps as it passes characters. -/
theorem length_le (h : Steps r pieces last) : pieces.length ≤ pieces.flatten.length := by
  induction h with
  | nil => exact Nat.le_refl 0
  | cons hstep _ ih =>
    have hpos := List.length_pos_iff.mpr hstep.ne_nil
    rw [List.flatten_cons, List.length_append, List.length_cons]
    omega

end Steps

/-- Every reading is a row of steps up to its end. -/
theorem exists_steps (r : Reading) : ∃ pieces last, Steps r pieces last ∧
    ((∃ nodes, last.step = .ok (.done nodes) ∧ r.run = .ok nodes) ∨
      ∃ e, last.step = .error e ∧ r.run = .error e) := by
  fun_induction run r with
  | case1 r nodes hstep => exact ⟨[], r, .nil, .inl ⟨nodes, hstep, rfl⟩⟩
  | case2 r r' hstep ih =>
    obtain ⟨s, hs⟩ := exists_advances hstep
    obtain ⟨pieces, last, hsteps, hend⟩ := ih
    exact ⟨s :: pieces, last, .cons hs hsteps, hend⟩
  | case3 r e hstep => exact ⟨[], r, .nil, .inr ⟨e, hstep, rfl⟩⟩

end Reading

namespace Sheet

/-- Reading a text comes to an end after at most as many steps as the text has characters
once its comments are settled.  Either all of it has been passed, outside of all blocks and
but for white space at its end, or there is a fault, which quotes the text as it was given. -/
theorem parse_finishes (file css : String) : ∃ pieces last,
    (Reading.ofText (Chars.settle css.toList)).Steps pieces last ∧
      pieces.length ≤ (Chars.settle css.toList).length ∧
      ((∃ nodes gap, parse file css = .ok (.block .sheet nodes) ∧
          last.step = .ok (.done nodes) ∧ last.stack = [] ∧
          Chars.settle css.toList = pieces.flatten ++ gap ∧ AllBlank gap) ∨
        ∃ e rest, parse file css =
            .error (.stylesheet file e.position.line e.position.column e.fault.message css) ∧
          last.step = .error e ∧ Chars.settle css.toList = pieces.flatten ++ rest) := by
  obtain ⟨pieces, last, hsteps, hend⟩ :=
    (Reading.ofText (Chars.settle css.toList)).exists_steps
  have htext : Chars.settle css.toList = pieces.flatten ++ last.cursor.rest :=
    hsteps.passes.rest_eq
  refine ⟨pieces, last, hsteps, ?_, ?_⟩
  · have hle := hsteps.length_le
    rw [htext, List.length_append]
    omega
  · rcases hend with ⟨nodes, hdone, hrun⟩ | ⟨e, herror, hrun⟩
    · obtain ⟨hstack, hblank, -⟩ := Reading.step_eq_done_iff.mp hdone
      exact .inl ⟨nodes, _, by rw [parse, hrun], hdone, hstack, htext, hblank⟩
    · exact .inr ⟨e, _, by rw [parse, hrun], herror, htext⟩

end Sheet
end VendorPrefixing
