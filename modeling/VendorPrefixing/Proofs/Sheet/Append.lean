import Mathlib.Data.List.Forall2
import VendorPrefixing.Proofs.Sheet.RoundTrip

/-!
# Texts one after the other

A style sheet that was read ends outside of all blocks, and nothing it was read from can
reach into what is written behind it.  So the moves made on a text are made again where
another text follows, and from there on it makes no difference what has been read
before, but for positions.

Main results:

- Theorem `Item.Written.append`: what is written before the end of a text stays so when
  the text goes on.
- Theorem `Reading.exists_run_followedBy`: a text that was read is passed as a whole when
  another one follows.
- Theorem `Reading.Alike.exists_run_eq_ok`: what is read does not depend on what was read before.
- Theorem `Sheet.parse_append`: two texts one after the other make the rules of both.
-/

namespace VendorPrefixing

/-! ## Going on -/

namespace Stretch

variable {k : Stretch} {place : StretchPlace} {depth size n : Nat} {s t rest : List Char}

/-- A stretch that ends before the text does ends there too when the text goes on. -/
theorem measureFrom_append_of_lt (h : k.measureFrom place depth size s = .ok n)
    (hlt : n < size + s.length) (t : List Char) :
    k.measureFrom place depth size (s ++ t) = .ok n := by
  induction s generalizing place depth size with
  | nil => exact absurd (measureFrom_bounds h).1 (Nat.not_le_of_lt hlt)
  | cons c s ih =>
    rw [List.length_cons, ← Nat.add_assoc, Nat.add_right_comm] at hlt
    have hlater : ∀ {place' : StretchPlace} {depth' : Nat},
        k.measureFrom place' depth' (size + 1) s = .ok n → (s ++ t).head? = s.head? := by
      intro place' depth' hs
      cases s with
      | nil => exact absurd (measureFrom_bounds hs).1 (Nat.not_le_of_lt hlt)
      | cons d s => rfl
    rw [List.cons_append, measureFrom]
    rw [measureFrom] at h
    split at h
    · rename_i hplain
      rw [if_pos hplain]
      split at h
      · rename_i hstop
        rw [if_pos hstop]
        exact h
      · rename_i hstop
        rw [if_neg hstop, hlater h]
        exact ih h hlt
    · rename_i hplain
      rw [if_neg hplain, hlater h]
      exact ih h hlt

theorem Fills.append (h : k.Fills s rest) (hrest : rest ≠ []) (t : List Char) :
    k.Fills s (rest ++ t) := by
  rw [Fills, ← List.append_assoc]
  refine measureFrom_append_of_lt h ?_ t
  rw [List.length_append, Nat.zero_add]
  exact Nat.lt_add_of_pos_right (List.length_pos_iff.mpr hrest)

end Stretch

/-- What is written before the end of a text stays so when the text goes on. -/
theorem Item.Written.append {p : Position} {content : Content} {s rest t : List Char} {i : Item}
    (h : Written p rest content s i) (hend : content = .declarations → rest ≠ [])
    (hfree : IsCommentFree (s ++ (rest ++ t))) : Written p (rest ++ t) content s i := by
  have hopens := hfree.isPrefixOf_eq_false
  cases h with
  | comment _ => cases hopens
  | rule _ hat htext =>
    exact .rule (by simpa using hopens) hat (htext.append (List.cons_ne_nil _ _) t)
  | frame _ htext => exact .frame (by simpa using hopens) (htext.append (List.cons_ne_nil _ _) t)
  | block hname hnext htext hhead =>
    exact .block hname hnext (htext.append (List.cons_ne_nil _ _) t) hhead
  | statement hname hnext htext hkind =>
    exact .statement hname hnext (htext.append (List.cons_ne_nil _ _) t) hkind
  | @declaration property gap value semicolon _ hproperty hchars hgap hvalue hsemicolon =>
    have hrest := hend rfl
    have hgoes := hvalue.append (List.append_ne_nil_of_right_ne_nil semicolon hrest) t
    rw [List.append_assoc] at hgoes
    refine .declaration (by simpa using hopens) hproperty hchars hgap hgoes
      (hsemicolon.imp_right (And.imp_right fun hnext => ?_))
    rwa [List.head?_append_of_ne_nil _ hrest]

/-- The same place, where another text follows. -/
def Cursor.followedBy (c : Cursor) (t : List Char) : Cursor where
  position := c.position
  rest := c.rest ++ t

theorem Cursor.Passes.append {c c' : Cursor} {s : List Char} (h : c.Passes s c')
    (t : List Char) : (c.followedBy t).Passes s (c'.followedBy t) where
  rest_eq := by
    rw [followedBy, h.rest_eq, List.append_assoc]
    rfl
  position_eq := h.position_eq

theorem StartsItem.append {s : List Char} (h : StartsItem s) (t : List Char) :
    StartsItem (s ++ t) := by
  obtain ⟨c, hhead, hc⟩ := h
  obtain ⟨s, rfl⟩ := List.head?_eq_some_iff.mp hhead
  exact ⟨c, rfl, hc⟩

namespace Reading

variable {r r' : Reading} {nodes : List Node} {t : List Char}

/-- The same reading, where another text follows. -/
def followedBy (r : Reading) (t : List Char) : Reading where
  stack := r.stack
  nodes := r.nodes
  cursor := r.cursor.followedBy t

/-- A move is made again when the text goes on. -/
theorem Moves.append (h : r.Moves r') (hend : r'.stack ≠ [] → r'.cursor.rest ≠ [])
    (hfree : IsCommentFree (r.cursor.rest ++ t)) : (r.followedBy t).Moves (r'.followedBy t) := by
  -- What is read behind white space opens no comment either.
  have hitem : ∀ {stack b s c' i} {gap : List Char}, r.cursor.Passes gap b → b.Passes s c' →
      Item.Written b.position c'.rest (contentWithin stack) s i →
      (contentWithin stack = .declarations → c'.rest ≠ []) →
      Item.Written b.position (c'.followedBy t).rest (contentWithin stack) s i := by
    intro stack b s c' i gap hfront hpasses hwritten hrest
    refine hwritten.append hrest (hfree.of_isInfix ⟨gap, [], ?_⟩)
    rw [hfront.rest_eq, hpasses.rest_eq]
    simp
  cases h with
  | close hgap hpasses => exact .close hgap (hpasses.append t)
  | semicolon hgap hpasses => exact .semicolon hgap (hpasses.append t)
  | @leaf stack nodes c b c' gap s l hgap hfront hstart hpasses hwritten =>
    have hrest : contentWithin stack = .declarations → c'.rest ≠ [] := fun hcontent =>
      hend fun hnil => by
        cases (show stack = [] from hnil)
        cases hcontent
    have hgoes := hitem hfront hpasses hwritten hrest
    exact .leaf hgap (hfront.append t) (hstart.append t) (hpasses.append t) hgoes
  | opening hgap hfront hstart hpasses hwritten =>
    have hgoes := hitem hfront hpasses hwritten fun _ => hend (List.cons_ne_nil _ _)
    exact .opening hgap (hfront.append t) (hstart.append t) (hpasses.append t) hgoes

/-- A text that was read is passed as a whole when another one follows. -/
theorem exists_run_followedBy (h : r.run = .ok nodes)
    (hfree : IsCommentFree (r.cursor.rest ++ t)) :
    ∃ p, (r.followedBy t).run = (mk [] nodes.reverse ⟨p, t⟩).run := by
  refine induction_of_run (motive := fun r => IsCommentFree (r.cursor.rest ++ t) →
    ∃ p, (r.followedBy t).run = (mk [] nodes.reverse ⟨p, t⟩).run) h ?_ ?_ hfree
  · rintro ⟨stack, nodes', c⟩ hstack hblank rfl -
    obtain rfl : stack = [] := hstack
    refine ⟨c.position.afterText c.rest, ?_⟩
    rw [List.reverse_reverse]
    exact run_append_of_allBlank hblank c.position t
  · intro r r' hmove hrun ih hfree
    obtain ⟨s, hs⟩ := hmove.exists_passes
    obtain ⟨p, hp⟩ := ih (hfree.of_isInfix ⟨s, [], by rw [hs.rest_eq]; simp⟩)
    have hmove' := hmove.append (ne_nil_of_run hrun) hfree
    exact ⟨p, (run_of_more (step_of_moves hmove')).trans hp⟩

end Reading

/-! ## Starting anew -/

/-- Trees that agree in everything but positions, one after the other. -/
theorem Node.sameStructureAll_iff {ns ms : List Node} :
    Node.sameStructureAll ns ms = true ↔
      List.Forall₂ (fun n m => n.sameStructure m = true) ns ms := by
  induction ns generalizing ms with
  | nil =>
    cases ms with
    | nil => exact iff_of_true rfl .nil
    | cons m ms => exact iff_of_false nofun nofun
  | cons n ns ih =>
    cases ms with
    | nil => exact iff_of_false nofun nofun
    | cons m ms => rw [Node.sameStructureAll, Bool.and_eq_true, List.forall₂_cons, ih]

/-- Items that agree in everything but positions. -/
inductive Item.SameStructure : Item → Item → Prop
  | leaf {l l' : Leaf} (h : l.sameStructure l' = true) : SameStructure (leaf l) (leaf l')
  | opening (head : Block) (brace brace' : Position) :
    SameStructure (opening head brace) (opening head brace')

/-- An item can be written at any position. -/
theorem Item.Written.exists_sameStructure {p : Position} {content : Content}
    {s rest : List Char} {i : Item} (h : Written p rest content s i) (q : Position) :
    ∃ i', i.SameStructure i' ∧ Written q rest content s i' := by
  cases h with
  | comment hend => exact ⟨_, .leaf (Leaf.sameStructure_refl _), .comment hend⟩
  | rule hcomment hat htext => exact ⟨_, .opening _ _ _, .rule hcomment hat htext⟩
  | frame hcomment htext => exact ⟨_, .opening _ _ _, .frame hcomment htext⟩
  | block hname hnext htext hhead =>
    exact ⟨_, .opening _ _ _, .block hname hnext htext hhead⟩
  | statement hname hnext htext hkind =>
    exact ⟨_, .leaf (Leaf.sameStructure_refl _), .statement hname hnext htext hkind⟩
  | declaration hcomment hproperty hchars hgap hvalue hsemicolon =>
    refine ⟨_, .leaf ?_, .declaration hcomment hproperty hchars hgap hvalue hsemicolon⟩
    simp [Leaf.sameStructure]

/-- Two stacks of blocks with the nodes in the innermost of them agree in everything but
positions and what has been read outside of all blocks before: here `base` and there
`base'`. -/
inductive AlikeAbove (base base' : List Node) :
    List OpenBlock → List Node → List OpenBlock → List Node → Prop
  | bottom {ns ns' : List Node}
    (h : List.Forall₂ (fun n m => n.sameStructure m = true) ns ns') :
    AlikeAbove base base' [] (ns ++ base) [] (ns' ++ base')
  | inside {o o' : OpenBlock} {stack stack' : List OpenBlock} {ns ns' : List Node}
    (hhead : o.head = o'.head)
    (h : List.Forall₂ (fun n m => n.sameStructure m = true) ns ns')
    (hbefore : AlikeAbove base base' stack o.before stack' o'.before) :
    AlikeAbove base base' (o :: stack) ns (o' :: stack') ns'

namespace AlikeAbove

variable {base base' : List Node} {stack stack' : List OpenBlock} {ns ns' : List Node}
  {n n' : Node}

theorem cons (h : AlikeAbove base base' stack ns stack' ns')
    (hn : n.sameStructure n' = true) :
    AlikeAbove base base' stack (n :: ns) stack' (n' :: ns') := by
  cases h with
  | bottom h => exact .bottom (.cons hn h)
  | inside hhead h hbefore => exact .inside hhead (.cons hn h) hbefore

theorem contentWithin_eq (h : AlikeAbove base base' stack ns stack' ns') :
    contentWithin stack = contentWithin stack' := by
  cases h with
  | bottom _ => rfl
  | inside hhead _ _ => exact congrArg Block.content hhead

end AlikeAbove

namespace Reading

variable {base base' : List Node} {r r' r₁ : Reading} {nodes : List Node}

/-- Two readings of one text that agree in everything but positions and what has been
read outside of all blocks before. -/
structure Alike (base base' : List Node) (r r' : Reading) : Prop where
  rest_eq : r.cursor.rest = r'.cursor.rest
  above : AlikeAbove base base' r.stack r.nodes r'.stack r'.nodes

theorem exists_passes_of_rest_eq {c c' d : Cursor} {s : List Char} (h : c.Passes s c')
    (heq : c.rest = d.rest) : ∃ d', d.Passes s d' ∧ c'.rest = d'.rest :=
  ⟨⟨d.position.afterText s, c'.rest⟩, ⟨heq ▸ h.rest_eq, rfl⟩, rfl⟩

/-- Readings that are alike make moves that are alike. -/
theorem Alike.exists_moves (hr : Alike base base' r r') (h : r.Moves r₁) :
    ∃ r₁', r'.Moves r₁' ∧ Alike base base' r₁ r₁' := by
  obtain ⟨stack', nodes', d⟩ := r'
  obtain ⟨hrest, habove⟩ := hr
  cases h with
  | @close o stack nodes c c' gap hgap hpasses =>
    obtain ⟨d', hd', hrest'⟩ := exists_passes_of_rest_eq hpasses hrest
    cases habove with
    | @inside _ o' _ stack' _ nodes' hhead h hbefore =>
      refine ⟨_, .close hgap hd', hrest', hbefore.cons ?_⟩
      have hchildren := Node.sameStructureAll_iff.mpr (List.forall₂_reverse_iff.mpr h)
      rw [Node.sameStructure, hhead, hchildren]
      simp
  | semicolon hgap hpasses =>
    obtain ⟨d', hd', hrest'⟩ := exists_passes_of_rest_eq hpasses hrest
    exact ⟨_, .semicolon hgap hd', hrest', habove⟩
  | @leaf stack nodes c b c' gap s l hgap hfront hstart hpasses hitem =>
    obtain ⟨b', hb', hbrest⟩ := exists_passes_of_rest_eq hfront hrest
    obtain ⟨d', hd', hrest'⟩ := exists_passes_of_rest_eq hpasses hbrest
    obtain ⟨i', hsame, hitem'⟩ := hitem.exists_sameStructure b'.position
    rw [hrest', habove.contentWithin_eq] at hitem'
    cases hsame with
    | leaf hl =>
      exact ⟨_, .leaf hgap hb' (hbrest ▸ hstart) hd' hitem', hrest', habove.cons hl⟩
  | @opening stack nodes c b c' gap s head brace hgap hfront hstart hpasses hitem =>
    obtain ⟨b', hb', hbrest⟩ := exists_passes_of_rest_eq hfront hrest
    obtain ⟨d', hd', hrest'⟩ := exists_passes_of_rest_eq hpasses hbrest
    obtain ⟨i', hsame, hitem'⟩ := hitem.exists_sameStructure b'.position
    rw [hrest', habove.contentWithin_eq] at hitem'
    cases hsame with
    | opening =>
      exact ⟨_, .opening hgap hb' (hbrest ▸ hstart) hd' hitem', hrest', .inside rfl .nil habove⟩

/-- What is read does not depend on what was read before. -/
theorem Alike.exists_run_eq_ok (hr : Alike base base' r r') (h : r.run = .ok nodes) :
    ∃ ns ns', Node.sameStructureAll ns ns' = true ∧ nodes = base.reverse ++ ns ∧
      r'.run = .ok (base'.reverse ++ ns') := by
  revert r'
  refine induction_of_run (motive := fun r => ∀ {r'}, Alike base base' r r' →
    ∃ ns ns', Node.sameStructureAll ns ns' = true ∧ nodes = base.reverse ++ ns ∧
      r'.run = .ok (base'.reverse ++ ns')) h ?_ ?_
  · rintro ⟨stack, nodes₁, c⟩ hstack hblank rfl ⟨stack', nodes₁', d⟩ ⟨hrest, habove⟩
    dsimp only at hstack hrest habove hblank
    subst hstack
    cases habove with
    | @bottom ns ns' hsame =>
      refine ⟨ns.reverse, ns'.reverse,
        Node.sameStructureAll_iff.mpr (List.forall₂_reverse_iff.mpr hsame),
        List.reverse_append, ?_⟩
      rw [run_eq, step_eq_done_iff.mpr ⟨rfl, hrest ▸ hblank, List.reverse_append⟩]
  · intro r r₁ hmove _ ih r' hr
    obtain ⟨r₁', hmove', hr₁⟩ := hr.exists_moves hmove
    obtain ⟨ns, ns', hsame, heq, hrun⟩ := ih hr₁
    exact ⟨ns, ns', hsame, heq, (run_of_more (step_of_moves hmove')).trans hrun⟩

/-- A text is read in the same way whatever was read before. -/
theorem alike_start (base base' : List Node) (p q : Position) (s : List Char) :
    Alike base base' ⟨[], base, ⟨p, s⟩⟩ ⟨[], base', ⟨q, s⟩⟩ where
  rest_eq := rfl
  above := .bottom .nil

end Reading

namespace Sheet

variable {file fileA a b : String} {as : List Node}

/-- Two texts one after the other make the rules of both. -/
theorem parse_append (file fileB : String) (hfree : IsCommentFree (a.toList ++ b.toList))
    (ha : parse fileA a = .ok (.block .sheet as)) :
    ((∃ n, parse file (a ++ b) = .ok n) ↔ ∃ m, parse fileB b = .ok m) ∧
      ∀ n bs, parse file (a ++ b) = .ok n → parse fileB b = .ok (.block .sheet bs) →
        n.sameStructure (.block .sheet (as ++ bs)) = true := by
  have hcssA := hfree.of_isInfix (List.prefix_append a.toList b.toList).isInfix
  have hcssB := hfree.of_isInfix (List.suffix_append a.toList b.toList).isInfix
  have hcss : IsCommentFree (a ++ b).toList := by rwa [String.toList_append]
  obtain ⟨p, hp⟩ := Reading.exists_run_followedBy ((parse_eq_ok_iff hcssA).mp ha) hfree
  have hrun : (Reading.ofText (a ++ b).toList).run =
      (Reading.mk [] as.reverse ⟨p, b.toList⟩).run := by
    rw [← hp, String.toList_append]
    rfl
  have hforward := Reading.alike_start as.reverse [] p .start b.toList
  have hback := Reading.alike_start [] as.reverse .start p b.toList
  refine ⟨⟨?_, ?_⟩, ?_⟩
  · rintro ⟨n, hn⟩
    obtain ⟨nodes, rfl⟩ := parse_eq_ok hn
    rw [parse_eq_ok_iff hcss, hrun] at hn
    obtain ⟨-, ns', -, -, hns'⟩ := hforward.exists_run_eq_ok hn
    exact ⟨_, (parse_eq_ok_iff hcssB).mpr hns'⟩
  · rintro ⟨m, hm⟩
    obtain ⟨bs, rfl⟩ := parse_eq_ok hm
    obtain ⟨-, ns', -, -, hns'⟩ := hback.exists_run_eq_ok ((parse_eq_ok_iff hcssB).mp hm)
    exact ⟨_, (parse_eq_ok_iff hcss).mpr (hrun.trans hns')⟩
  · intro n bs hn hbs
    obtain ⟨nodes, rfl⟩ := parse_eq_ok hn
    rw [parse_eq_ok_iff hcss, hrun] at hn
    obtain ⟨ns, ns', hsame, rfl, hns'⟩ := hforward.exists_run_eq_ok hn
    obtain rfl : bs = ns' :=
      Except.ok.inj (((parse_eq_ok_iff hcssB).mp hbs).symm.trans hns')
    rw [List.reverse_reverse, Node.sameStructure,
      Node.sameStructureAll_append (Node.sameStructureAll_refl as) hsame]
    rfl

/-- A rule inside of a conditional block, two times. -/
theorem parse_append_nestedText :
    ∃ as n, parse unnamed nestedText = .ok (.block .sheet as) ∧
      parse unnamed (nestedText ++ nestedText) = .ok n ∧
      n.sameStructure (.block .sheet (as ++ as)) = true := by
  obtain ⟨m, hm⟩ := exists_parse_nestedText
  obtain ⟨as, rfl⟩ := parse_eq_ok hm
  have hfree : IsCommentFree (nestedText.toList ++ nestedText.toList) :=
    IsCommentFree.of_not_mem (by decide)
  obtain ⟨hiff, hsame⟩ := parse_append unnamed unnamed hfree hm
  obtain ⟨n, hn⟩ := hiff.mpr ⟨_, hm⟩
  exact ⟨as, n, hm, hn, hsame n as hn hm⟩

end Sheet
end VendorPrefixing
