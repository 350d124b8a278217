import VendorPrefixing.Proofs.Sheet.Printed

/-!
# Reading what was printed

A printed tree is read in pieces.  Each piece of the text, read inside of some
blocks, adds nodes to the innermost of them and leads to the text behind it; the
nodes agree with those that were printed in everything but positions.

Main results:

- Theorem `ReadsAs.trans`: what pieces are read as is put together like the pieces.
- Theorem `readsAs_printAt`: a printed node is read as that node.
- Theorem `Sheet.parse_print`: a style sheet that was read, printed and read again has
  the structure it had.
-/

namespace VendorPrefixing

theorem Node.sameStructureAll_append {as bs cs ds : List Node}
    (h : Node.sameStructureAll as bs = true) (h' : Node.sameStructureAll cs ds = true) :
    Node.sameStructureAll (as ++ cs) (bs ++ ds) = true := by
  induction as generalizing bs with
  | nil =>
    cases bs with
    | nil => exact h'
    | cons b bs => cases h
  | cons a as ih =>
    cases bs with
    | nil => cases h
    | cons b bs =>
      rw [Node.sameStructureAll, Bool.and_eq_true] at h
      rw [List.cons_append, List.cons_append, Node.sameStructureAll, h.1, ih h.2]
      rfl

/-! ## Items -/

/-- A text that can be passed is a whole stretch in front of a stop. -/
theorem Stretch.fills_of_passes? {k : Stretch} {s t : List Char} {c : Char} (hk : k.IsProper)
    (hs : k.passes? .outside s = some .outside) (hc : c ∈ k.stops)
    (hfree : IsCommentFree (s ++ c :: t)) : k.Fills s (c :: t) :=
  measure_append hk hs hc (hfree.of_isInfix ⟨[], t, by simp⟩) t

namespace Item

variable {s t : List Char} {c : Char}

/-- A printed declaration is read as that declaration. -/
theorem exists_read_declaration {property value gap : List Char} (hproperty : IsProperty property)
    (hvalue : Stretch.value.Accepts value) (hgap : AllBlank gap) (hc : c ∈ Stretch.value.stops)
    (hfree : IsCommentFree (property ++ ':' :: (gap ++ (value ++ c :: t)))) (p : Position) :
    ∃ q, read .declarations ⟨p, property ++ ':' :: (gap ++ (value ++ c :: t))⟩ =
      .ok (leaf (.declaration ⟨.ofList property, .ofList value, p⟩),
        (Cursor.mk q (c :: t)).skip ';') := by
  have hpass : Stretch.value.passes? .outside (gap ++ value) = some .outside := by
    have hgap' := Stretch.passes?_of_isBlank Stretch.isProper_value rfl
      (Stretch.quotesNoBlank_of_none (n := .outside) rfl) hgap
    rw [Stretch.passes?_append, hgap']
    exact hvalue.passes
  have htrim : Chars.trim (gap ++ value) = value := by
    rw [Chars.trim_append_left hgap, hvalue.trim_eq]
  rw [← List.append_assoc gap] at hfree ⊢
  have hfills := Stretch.fills_of_passes? (t := t) Stretch.isProper_value hpass hc
    (hfree.of_isInfix ⟨property ++ [':'], [], by simp⟩)
  -- The semicolon is read along if that is the stop.
  have hend : ∃ semicolon rest, c :: t = semicolon ++ rest ∧
      (semicolon = [';'] ∨ semicolon = [] ∧ rest.head? ≠ some ';') := by
    by_cases hsemicolon : c = ';'
    · exact ⟨[';'], t, by rw [hsemicolon]; rfl, .inl rfl⟩
    · exact ⟨[], c :: t, rfl, .inr ⟨rfl, by simpa using hsemicolon⟩⟩
  obtain ⟨semicolon, rest, hsplit, hsemicolon⟩ := hend
  rw [hsplit] at hfree hfills ⊢
  have hwritten : Written p rest .declarations
      (property ++ ([] ++ ':' :: (gap ++ value ++ semicolon)))
      (leaf (.declaration ⟨.ofList property, .ofList (Chars.trim (gap ++ value)), p⟩)) :=
    .declaration hfree.isPrefixOf_eq_false hproperty.ne_nil hproperty.isPropertyChar AllBlank.nil
      hfills hsemicolon
  refine ⟨p.afterText (property ++ ':' :: (gap ++ value)), ?_⟩
  have hread := read_of_written hwritten
  rw [htrim] at hread
  rw [Cursor.skip_append hsemicolon, ← Position.afterText_append]
  simpa using hread

/-- The text in front of an opening brace is read as a rule unless it is an at-rule. -/
theorem exists_read_rule (hs : Stretch.prelude.passes? .outside s = some .outside)
    (hat : s.head? ≠ some '@') (hfree : IsCommentFree (s ++ '{' :: t)) (p : Position) :
    ∃ brace q, read .rules ⟨p, s ++ '{' :: t⟩ =
      .ok (opening (.rule (selectors (Chars.trim s))) brace, ⟨q, t⟩) := by
  have hfills := Stretch.fills_of_passes? Stretch.isProper_prelude hs (by decide) hfree
  have hread := read_of_written (.rule (p := p) hfree.isPrefixOf_eq_false hat hfills)
  rw [List.append_assoc] at hread
  exact ⟨_, _, hread⟩

theorem exists_read_frame (hs : Stretch.prelude.passes? .outside s = some .outside)
    (hfree : IsCommentFree (s ++ '{' :: t)) (p : Position) :
    ∃ brace q, read .frames ⟨p, s ++ '{' :: t⟩ =
      .ok (opening (.frame (selectors (Chars.trim s))) brace, ⟨q, t⟩) := by
  have hfills := Stretch.fills_of_passes? Stretch.isProper_prelude hs (by decide) hfree
  have hread := read_of_written (.frame (p := p) hfree.isPrefixOf_eq_false hfills)
  rw [List.append_assoc] at hread
  exact ⟨_, _, hread⟩

/-- A blank ends a name. -/
theorem head?_all_of_blank (hs : ∀ d, s.head? = some d → d = ' ') :
    s.head?.all (!isNameChar ·) = true := by
  cases s with
  | nil => rfl
  | cons d s =>
    obtain rfl := hs d rfl
    exact (by decide : (!isNameChar ' ') = true)

/-- A printed at-rule opens the block that its keyword announces. -/
theorem exists_read_block {word : String} {head : Block} (hword : IsName word.toList)
    (hs : Stretch.prelude.passes? .outside s = some .outside)
    (hblank : ∀ d, s.head? = some d → d = ' ')
    (hhead : (AtKeyword.ofName word).block? (Chars.trim s) = some head)
    (hfree : IsCommentFree ('@' :: (word.toList ++ (s ++ '{' :: t)))) (p : Position) :
    ∃ brace q, read .rules ⟨p, '@' :: (word.toList ++ (s ++ '{' :: t))⟩ =
      .ok (opening head brace, ⟨q, t⟩) := by
  have hfills := Stretch.fills_of_passes? (c := '{') (t := t) Stretch.isProper_prelude hs (by decide)
    (hfree.of_isInfix ⟨'@' :: word.toList, [], by simp⟩)
  rw [← String.ofList_toList (s := word)] at hhead
  have hread := read_of_written (.block (p := p) hword (head?_all_of_blank hblank) hfills hhead)
  simp only [List.cons_append, List.append_assoc, List.nil_append] at hread
  exact ⟨_, _, hread⟩

/-- A printed statement is read as that statement. -/
theorem exists_read_statement {kind : Statement}
    (hs : Stretch.prelude.passes? .outside s = some .outside)
    (hblank : ∀ d, s.head? = some d → d = ' ')
    (hfree : IsCommentFree ('@' :: (kind.keyword.toList ++ (s ++ ';' :: t)))) (p : Position) :
    ∃ q, read .rules ⟨p, '@' :: (kind.keyword.toList ++ (s ++ ';' :: t))⟩ =
      .ok (leaf (.statement kind (.ofList (Chars.trim s))), ⟨q, t⟩) := by
  have hkeyword : AtKeyword.ofName (.ofList kind.keyword.toList) = .statement kind := by
    rw [String.ofList_toList]
    exact AtKeyword.ofName_word_of_isMarked (k := .statement kind) trivial (by simp)
  have hname : IsName kind.keyword.toList :=
    AtKeyword.isName_word_of_isMarked (k := .statement kind) trivial (by simp)
  have hfills := Stretch.fills_of_passes? (c := ';') (t := t) Stretch.isProper_prelude hs (by decide)
    (hfree.of_isInfix ⟨'@' :: kind.keyword.toList, [], by simp⟩)
  have hread := read_of_written
    (.statement (p := p) hname (head?_all_of_blank hblank) hfills hkeyword)
  simp only [List.cons_append, List.append_assoc, List.nil_append] at hread
  exact ⟨_, hread⟩

end Item

/-! ## Pieces of text -/

/-- Inside of the blocks of `stack`, a text is read as further nodes that agree with
`trees` in everything but positions, up to the text `t`.  No comment is opened on the
way. -/
def ReadsAs (stack : List OpenBlock) (s : List Char) (trees : List Node) (t : List Char) :
    Prop :=
  IsCommentFree t →
    IsCommentFree s ∧ ∀ nodes p, ∃ further q, Node.sameStructureAll further trees = true ∧
      (Reading.mk stack nodes ⟨p, s⟩).run =
        (Reading.mk stack (further.reverse ++ nodes) ⟨q, t⟩).run

namespace ReadsAs

variable {stack : List OpenBlock} {s t u front : List Char} {trees trees' : List Node}

theorem refl (stack : List OpenBlock) (s : List Char) : ReadsAs stack s [] s :=
  fun hs => ⟨hs, fun _ p => ⟨[], p, rfl, rfl⟩⟩

/-- What pieces are read as is put together like the pieces. -/
theorem trans (hs : ReadsAs stack s trees t) (ht : ReadsAs stack t trees' u) :
    ReadsAs stack s (trees ++ trees') u := by
  intro hu
  obtain ⟨htfree, htread⟩ := ht hu
  obtain ⟨hsfree, hsread⟩ := hs htfree
  refine ⟨hsfree, fun nodes p => ?_⟩
  obtain ⟨further, q, hsame, hrun⟩ := hsread nodes p
  obtain ⟨further', q', hsame', hrun'⟩ := htread (further.reverse ++ nodes) q
  refine ⟨further ++ further', q', Node.sameStructureAll_append hsame hsame', ?_⟩
  rw [hrun, hrun', List.reverse_append, List.append_assoc]

/-- White space is read as nothing. -/
theorem allBlank (h : AllBlank front) (s : List Char) : ReadsAs stack (front ++ s) [] s :=
  fun hs => ⟨hs.append_of_not_mem h.slash_not_mem, fun _ p =>
    ⟨[], _, rfl, Reading.run_append_of_allBlank h p s⟩⟩

/-- A semicolon between items is read as nothing. -/
theorem semicolon (stack : List OpenBlock) (s : List Char) : ReadsAs stack (';' :: s) [] s :=
  fun hs => ⟨hs.cons_of_ne (by decide), fun _ p =>
    ⟨[], _, rfl, (Reading.run_skip_semicolon (Cursor.mk p (';' :: s))).symm⟩⟩

/-- A leaf is read where an item is read as that leaf, maybe with the semicolon
behind it. -/
theorem leaf {l : Leaf} (hstart : StartsItem s) (hfree : IsCommentFree t → IsCommentFree s)
    (hread : IsCommentFree s → ∀ p, ∃ l' q after, l'.sameStructure l = true ∧
      (after = ⟨q, t⟩ ∨ after = Cursor.skip ⟨q, t⟩ ';') ∧
      Item.read (contentWithin stack) ⟨p, s⟩ = .ok (.leaf l', after)) :
    ReadsAs stack s [.leaf l] t := by
  refine fun ht => ⟨hfree ht, fun nodes p => ?_⟩
  obtain ⟨l', q, after, hsame, hafter, hread⟩ := hread (hfree ht) p
  refine ⟨[.leaf l'], q, ?_, ?_⟩
  · rw [Node.sameStructureAll, Node.sameStructure, hsame]
    rfl
  · have hstep := Reading.step_of_startsItem stack nodes p hstart
    rw [hread] at hstep
    rw [Reading.run_of_more hstep]
    rcases hafter with rfl | rfl
    · rfl
    · exact Reading.run_skip_semicolon _

/-- A block is read where an item opens it and its contents are read up to its
closing brace. -/
theorem block {head : Block} {children : List Node} (hstart : StartsItem s)
    (hfree : IsCommentFree t → IsCommentFree s)
    (hread : IsCommentFree s → ∀ p, ∃ brace q,
      Item.read (contentWithin stack) ⟨p, s⟩ = .ok (.opening head brace, ⟨q, t⟩))
    (hchildren : ∀ brace before, ReadsAs (⟨head, brace, before⟩ :: stack) t children ('}' :: u)) :
    ReadsAs stack s [.block head children] u := by
  intro hu
  have hclose : IsCommentFree ('}' :: u) := hu.cons_of_ne (by decide)
  have hs := hfree (hchildren .start [] hclose).1
  refine ⟨hs, fun nodes p => ?_⟩
  obtain ⟨brace, q, hread⟩ := hread hs p
  obtain ⟨further, q', hsame, hrun⟩ := (hchildren brace nodes hclose).2 [] q
  have hopen := Reading.step_of_startsItem stack nodes p hstart
  rw [hread] at hopen
  refine ⟨[.block head further], q'.afterText ['}'], ?_, ?_⟩
  · rw [Node.sameStructureAll, Node.sameStructure, hsame]
    simp [Node.sameStructureAll]
  · rw [Reading.run_of_more hopen, hrun]
    refine Reading.run_of_more ?_
    rw [Reading.step, Cursor.skipBlanks_of_not_isBlank (c := '}') rfl rfl, List.append_nil,
      List.reverse_reverse]
    rfl

end ReadsAs

/-! ## Printed trees -/

theorem startsItem_of_passes? {s t : List Char}
    (hs : Stretch.prelude.passes? .outside s = some .outside)
    (hblank : ∀ d, s.head? = some d → isBlank d = false) : StartsItem (s ++ '{' :: t) := by
  cases s with
  | nil => exact ⟨'{', rfl, rfl, by decide⟩
  | cons d s =>
    refine ⟨d, rfl, hblank d rfl, fun hd => ?_⟩
    rw [Stretch.passes?, if_pos] at hs
    · cases hs
    · have hstop : d ∈ Stretch.prelude.stops := by
        rw [List.mem_pair] at hd
        rcases hd with rfl | rfl <;> decide
      simp [hstop, Nesting.isTop_iff]

theorem startsItem_of_isProperty {s t : List Char} (hs : IsProperty s) : StartsItem (s ++ t) := by
  cases s with
  | nil => exact absurd rfl hs.ne_nil
  | cons d s =>
    have hd := hs.isPropertyChar d List.mem_cons_self
    simp only [Item.isPropertyChar, Bool.not_eq_true', Bool.or_eq_false_iff,
      beq_eq_false_iff_ne] at hd
    exact ⟨d, rfl, hd.2, by simp [hd.1.1.1.2, hd.1.2]⟩

variable {o : Layout} {stack : List OpenBlock} {s t u : List Char}

theorem readsAs_declaration (ho : o.IndentsBlank) (depth : Nat) {d : Declaration}
    (hstack : contentWithin stack = .declarations)
    (hd : (Leaf.declaration d).FitsIn .declarations)
    (ht : o.style = .compact → ∃ c u, t = c :: u ∧ c ∈ Stretch.value.stops) :
    ReadsAs stack ((o.leaf depth (.declaration d)).toList ++ t) [.leaf (.declaration d)] t := by
  obtain ⟨-, hproperty, hvalue⟩ := hd
  obtain ⟨gap, ending, hgap, hending, htext⟩ := o.exists_leaf_declaration depth d
  have hindent := Layout.allBlank_indentation ho depth
  have hread : ∀ c u, c ∈ Stretch.value.stops →
      ReadsAs stack (d.property.toList ++ ':' :: (gap ++ (d.value.toList ++ c :: u)))
        [.leaf (.declaration d)] (c :: u) := by
    intro c u hc
    refine ReadsAs.leaf (startsItem_of_isProperty hproperty) (fun hu => ?_) fun hfree p => ?_
    · have hstar : c ≠ '*' := by
        rintro rfl
        exact absurd hc (by decide)
      have hvalue' := hvalue.isSimple.isCommentFree.append_cons hstar hu
      exact hproperty.isSimple.isCommentFree.append_cons (by decide)
        ((hvalue'.append_of_not_mem hgap.slash_not_mem).cons_of_ne (by decide))
    · obtain ⟨q, hread⟩ := Item.exists_read_declaration hproperty hvalue hgap hc hfree p
      rw [hstack]
      refine ⟨_, q, _, ?_, .inr rfl, hread⟩
      simp [Leaf.sameStructure]
  rw [htext, List.append_assoc]
  refine (ReadsAs.allBlank hindent _).trans ?_
  rcases hending with rfl | ⟨hstyle, rfl⟩
  · have h := (hread ';' t (by decide)).trans (ReadsAs.semicolon stack t)
    simpa using h
  · obtain ⟨c, u, rfl, hc⟩ := ht hstyle
    simpa using hread c u hc

theorem readsAs_statement (ho : o.IndentsBlank) (depth : Nat) {kind : Statement} {text : String}
    (hstack : contentWithin stack = .rules) (hl : (Leaf.statement kind text).FitsIn .rules)
    (t : List Char) :
    ReadsAs stack ((o.leaf depth (.statement kind text)).toList ++ t)
      [.leaf (.statement kind text)] t := by
  obtain ⟨-, htext⟩ := hl
  rw [Layout.toList_leaf_statement, List.append_assoc]
  refine (ReadsAs.allBlank (Layout.allBlank_indentation ho depth) _).trans ?_
  have hread : ReadsAs stack ('@' :: (kind.keyword.toList ++ ((' ' :: text.toList) ++ ';' :: t)))
      [.leaf (.statement kind text)] t := by
    refine ReadsAs.leaf ⟨'@', rfl, rfl, by decide⟩ (fun ht => ?_) fun hfree p => ?_
    · have hkeyword : '/' ∉ '@' :: (kind.keyword.toList ++ [' ']) := by
        cases kind <;> decide
      have htext' := htext.isSimple.isCommentFree.append_cons (c := ';') (by decide)
        (ht.cons_of_ne (by decide))
      simpa using htext'.append_of_not_mem hkeyword
    · obtain ⟨q, hread⟩ := Item.exists_read_statement (s := ' ' :: text.toList) htext.passes
        (fun d hd => (Option.some.inj hd).symm) hfree p
      have htrim : Chars.trim (' ' :: text.toList) = text.toList := htext.trim_eq
      rw [htrim, String.ofList_toList] at hread
      rw [hstack]
      exact ⟨_, q, _, Leaf.sameStructure_refl _, .inl rfl, hread⟩
  simpa using hread

/-- White space at the ends of a prelude is left to what stands around it. -/
theorem exists_trimmed_prelude {gap : List Char}
    (ht : Stretch.prelude.passes? .outside t = some .outside) (hfree : IsCommentFree t)
    (hgap : AllBlank gap) :
    ∃ front s, AllBlank front ∧ t ++ gap = front ++ s ∧
      Stretch.prelude.passes? .outside s = some .outside ∧ IsCommentFree s ∧
      Chars.trim s = Chars.trim t ∧ s.head? = (Chars.trim t).head? := by
  obtain ⟨front, hfront, heq⟩ := Chars.exists_append_trimStart (t ++ gap)
  have hfree' : IsCommentFree (t ++ gap) := by
    refine hfree.append (IsCommentFree.of_not_mem hgap.slash_not_mem) fun _ hhead => ?_
    cases hgap _ (List.mem_of_head? hhead)
  refine ⟨front, _, hfront, heq, ?_, hfree'.of_isInfix (Chars.trimStart_isSuffix _).isInfix, ?_, ?_⟩
  · rw [Stretch.passes?_trimStart Stretch.isProper_prelude rfl
      (Stretch.quotesNoBlank_of_none (n := .outside) rfl),
      Stretch.passes?_append, ht, Option.bind_some]
    exact Stretch.passes?_of_isBlank Stretch.isProper_prelude rfl
      (Stretch.quotesNoBlank_of_none rfl) hgap
  · rw [← Chars.trim_append_right hgap t, heq, Chars.trim_append_left hfront, ← heq]
  · rw [← Chars.head?_trim, Chars.trim_append_right hgap]

/-- So does it at the ends of printed selectors, which are those of a prelude. -/
theorem exists_trimmed_selectors (ho : o.IndentsBlank) (depth : Nat) {s₀ gap : List Char}
    (hs₀ : Stretch.prelude.Accepts s₀) (hgap : AllBlank gap) :
    ∃ front s, AllBlank front ∧
      (o.selectors depth (Item.selectors s₀)).toList ++ gap = front ++ s ∧
      Stretch.prelude.passes? .outside s = some .outside ∧ IsCommentFree s ∧
      Item.selectors (Chars.trim s) = Item.selectors s₀ ∧ s.head? = s₀.head? := by
  obtain ⟨t, rfl, hhead, hpass, hfree, hselectors⟩ := Layout.exists_selectors ho depth hs₀
  obtain ⟨front, s, hfront, heq, hs, hsfree, htrim, hshead⟩ :=
    exists_trimmed_prelude hpass hfree hgap
  refine ⟨front, s, hfront, heq, hs, hsfree, htrim ▸ hselectors, ?_⟩
  rw [hshead, ← hhead]
  cases ht : (o.selectors depth (Item.selectors s₀)).toList.head? with
  | none =>
    rw [List.head?_eq_none_iff.mp ht]
    rfl
  | some c => exact Chars.head?_trim_of_head? ht (hs₀.isBlank_eq_false (hhead ▸ ht))

/-- In front of an opening brace, a text is read as the head of a block. -/
structure ReadsAsHead (content : Content) (s : List Char) (head : Block) : Prop where
  isCommentFree : IsCommentFree s
  startsItem : ∀ u, StartsItem (s ++ '{' :: u)
  read : ∀ u, IsCommentFree (s ++ '{' :: u) → ∀ p, ∃ brace q,
    Item.read content ⟨p, s ++ '{' :: u⟩ = .ok (.opening head brace, ⟨q, u⟩)

/-- The printed head of an at-rule is read as that head. -/
theorem readsAsHead_atRule (ho : o.IndentsBlank) (depth : Nat) {name : String} {head : Block}
    {s₀ gap : List Char} (hname : IsName name.toList) (hs₀ : Stretch.prelude.Accepts s₀)
    (hhead : (AtKeyword.ofName name).block? s₀ = some head) (hgap : gap = [] ∨ gap = [' ']) :
    ReadsAsHead .rules ((o.heading depth head).toList ++ gap) head := by
  have hblank : AllBlank gap := by
    rcases hgap with rfl | rfl <;> decide
  obtain ⟨t, htext, hspace, hpass, hfree, hblock⟩ := Layout.exists_heading ho depth hs₀ hhead
  have hword := AtKeyword.isName_word hname
  have hslash : '/' ∉ '@' :: (AtKeyword.ofName name).word.toList := by
    intro hmem
    rcases List.mem_cons.mp hmem with h | h
    · cases h
    · exact absurd (hword.2 _ h) (by decide)
  have hgapfree : IsCommentFree (t ++ gap) := by
    obtain ⟨front, s, hfront, heq, -, hsfree, -⟩ := exists_trimmed_prelude hpass hfree hblank
    rw [heq]
    exact hsfree.append_of_not_mem hfront.slash_not_mem
  have hgappass : Stretch.prelude.passes? .outside (t ++ gap) = some .outside := by
    rw [Stretch.passes?_append, hpass, Option.bind_some]
    exact Stretch.passes?_of_isBlank Stretch.isProper_prelude rfl
      (Stretch.quotesNoBlank_of_none rfl) hblank
  have hnext : ∀ d, (t ++ gap).head? = some d → d = ' ' := by
    intro d hd
    cases t with
    | nil =>
      rcases hgap with rfl | rfl
      · cases hd
      · exact (Option.some.inj hd).symm
    | cons c t => exact Option.some.inj hd ▸ hspace c rfl
  rw [htext, List.cons_append, List.append_assoc]
  refine ⟨hgapfree.append_of_not_mem hslash, fun u => ⟨'@', rfl, rfl, by decide⟩,
    fun u hu p => ?_⟩
  rw [List.cons_append, List.append_assoc] at hu ⊢
  refine Item.exists_read_block hword hgappass hnext ?_ hu p
  rwa [AtKeyword.ofName_word, Chars.trim_append_right hblank]

/-- The printed head of a block is read as that head. -/
theorem exists_readsAsHead (ho : o.IndentsBlank) (depth : Nat) {content : Content}
    {head : Block} {gap : List Char} (hhead : head.FitsIn content)
    (hgap : gap = [] ∨ gap = [' ']) :
    ∃ front s, AllBlank front ∧ (o.heading depth head).toList ++ gap = front ++ s ∧
      ReadsAsHead content s head := by
  have hblank : AllBlank gap := by
    rcases hgap with rfl | rfl <;> decide
  cases content with
  | declarations => exact hhead.elim
  | frames =>
    obtain ⟨s₀, hs₀, rfl⟩ := hhead
    obtain ⟨front, s, hfront, heq, hs, hsfree, hselectors, hshead⟩ :=
      exists_trimmed_selectors ho depth hs₀ hblank
    refine ⟨front, s, hfront, heq, hsfree, fun u => startsItem_of_passes? hs ?_, fun u => ?_⟩
    · rw [hshead]
      exact fun d => hs₀.isBlank_eq_false
    · rw [← hselectors]
      exact Item.exists_read_frame hs
  | rules =>
    rcases hhead with ⟨s₀, hs₀, hat, rfl⟩ | ⟨name, s₀, hname, hs₀, hhead⟩
    · obtain ⟨front, s, hfront, heq, hs, hsfree, hselectors, hshead⟩ :=
        exists_trimmed_selectors ho depth hs₀ hblank
      refine ⟨front, s, hfront, heq, hsfree, fun u => startsItem_of_passes? hs ?_, fun u => ?_⟩
      · rw [hshead]
        exact fun d => hs₀.isBlank_eq_false
      · rw [← hselectors]
        exact Item.exists_read_rule hs (hshead ▸ hat)
    · exact ⟨[], _, AllBlank.nil, rfl, readsAsHead_atRule ho depth hname hs₀ hhead hgap⟩

/-- A printed block is read as that block if its contents are read as its children. -/
theorem readsAs_enclose (ho : o.IndentsBlank) (depth : Nat) {head : Block}
    {children : List Node} {body : String} (hhead : head.FitsIn (contentWithin stack))
    (hbody : ∀ brace before u, (o.style = .compact → ∃ v, u = '}' :: v) →
      ReadsAs (⟨head, brace, before⟩ :: stack) (body.toList ++ u) children u) (t : List Char) :
    ReadsAs stack ((o.enclose depth head body).toList ++ t) [.block head children] t := by
  obtain ⟨gap, before, after, hgap, hbefore, hafter, hcompact, htext⟩ :=
    Layout.exists_enclose ho depth hhead.ne_sheet body
  obtain ⟨front, s, hfront, heq, hs⟩ := exists_readsAsHead ho depth hhead hgap
  have hchildren : ∀ brace nodes, ReadsAs (⟨head, brace, nodes⟩ :: stack)
      (before ++ (body.toList ++ (after ++ '}' :: t))) children ('}' :: t) := by
    intro brace nodes
    have hinside := hbody brace nodes (after ++ '}' :: t) fun hstyle =>
      ⟨t, by rw [hcompact hstyle]; rfl⟩
    have h := ((ReadsAs.allBlank hbefore _).trans hinside).trans (ReadsAs.allBlank hafter _)
    simpa using h
  have hblock := ReadsAs.block (hs.startsItem _)
    (fun h => hs.isCommentFree.append_cons (by decide) (h.cons_of_ne (by decide))) (hs.read _)
    hchildren
  have h := ((ReadsAs.allBlank (Layout.allBlank_indentation ho depth) _).trans
    (ReadsAs.allBlank hfront _)).trans hblock
  rw [htext, heq]
  simpa using h

theorem readsAs_separator (o : Layout) (content : Content) (previous : Option Node) (s : List Char) :
    ReadsAs stack ((o.separator content previous).toList ++ s) [] s := by
  have hblank : ∀ text : String, AllBlank text.toList → ReadsAs stack (text.toList ++ s) [] s :=
    fun _ h => ReadsAs.allBlank h s
  unfold Layout.separator
  split
  · exact hblank "" (by decide)
  · split
    · exact hblank "\n" (by decide)
    · exact hblank "\n\n" (by decide)
    · split
      · exact ReadsAs.semicolon stack s
      · exact hblank "" (by decide)
    · exact hblank "" (by decide)

/-- Behind a declaration in the compact style, the text goes on with what ends it. -/
def EndsDeclaration (o : Layout) (content : Content) (t : List Char) : Prop :=
  content = .declarations → o.style = .compact → ∃ c u, t = c :: u ∧ c ∈ Stretch.value.stops

/-- A further node in the compact style is separated from a declaration before it. -/
theorem endsDeclaration_printAll {content : Content} (depth : Nat) {n : Node} {ns : List Node}
    (hn : n.FitsIn content) (hns : Node.AllFitIn content ns) (ht : EndsDeclaration o content t) :
    EndsDeclaration o content ((Node.printAll o content depth (some n) ns).toList ++ t) := by
  intro hcontent hstyle
  cases ns with
  | nil => exact ht hcontent hstyle
  | cons m ns =>
    subst hcontent
    have hseparator : o.separator .declarations (some n) = ";" := by
      obtain ⟨d, rfl⟩ := Node.eq_leaf_of_fitsIn_declarations hn
      unfold Layout.separator
      rw [hstyle]
      rfl
    rw [Node.printAll, o.hides_eq_false hns.1, if_neg Bool.false_ne_true, hseparator]
    exact ⟨';', _, by simp; rfl, by decide⟩

mutual

/-- A printed node is read as that node. -/
theorem readsAs_printAt (ho : o.IndentsBlank) (depth : Nat) (stack : List OpenBlock)
    (t : List Char) : (n : Node) → n.FitsIn (contentWithin stack) →
      EndsDeclaration o (contentWithin stack) t →
      ReadsAs stack ((n.printAt o depth).toList ++ t) [n] t
  | .leaf (.declaration _), hn, ht => by
    rw [Node.FitsIn] at hn
    rw [Node.printAt]
    have hcontent := hn.1
    rw [hcontent] at hn
    exact readsAs_declaration ho depth hcontent hn (ht hcontent)
  | .leaf (.comment _), hn, _ => by
    rw [Node.FitsIn] at hn
    exact hn.elim
  | .leaf (.statement _ _), hn, _ => by
    rw [Node.FitsIn] at hn
    rw [Node.printAt]
    have hcontent := hn.1
    rw [hcontent] at hn
    exact readsAs_statement ho depth hcontent hn t
  | .block head children, hn, _ => by
    rw [Node.FitsIn] at hn
    rw [Node.printAt]
    refine readsAs_enclose ho depth hn.1 (fun brace before u hu => ?_) t
    refine readsAs_printAll ho _ none _ u children hn.2 fun _ hstyle => ?_
    obtain ⟨v, rfl⟩ := hu hstyle
    exact ⟨'}', v, rfl, by decide⟩

theorem readsAs_printAll (ho : o.IndentsBlank) (depth : Nat) (previous : Option Node)
    (stack : List OpenBlock) (t : List Char) : (ns : List Node) →
      Node.AllFitIn (contentWithin stack) ns → EndsDeclaration o (contentWithin stack) t →
      ReadsAs stack
        ((Node.printAll o (contentWithin stack) depth previous ns).toList ++ t) ns t
  | [], _, _ => by
    rw [Node.printAll]
    exact ReadsAs.refl stack t
  | n :: ns, hns, ht => by
    rw [Node.AllFitIn] at hns
    have hnode := readsAs_printAt ho depth stack _ n hns.1
      (endsDeclaration_printAll depth hns.1 hns.2 ht)
    have hrest := readsAs_printAll ho depth (some n) stack t ns hns.2 ht
    have h := ((readsAs_separator o (contentWithin stack) previous _).trans hnode).trans hrest
    rw [Node.printAll, o.hides_eq_false hns.1, if_neg Bool.false_ne_true]
    simpa using h

end

namespace Sheet

/-- A whole text adds at most a line break to what was printed. -/
theorem exists_toList_finish (o : Layout) (text : String) :
    ∃ back, AllBlank back ∧ (o.finish text).toList = text.toList ++ back := by
  rw [Layout.finish]
  split
  · split
    · exact ⟨[], AllBlank.nil, (List.append_nil _).symm⟩
    · exact ⟨['\n'], by decide, String.toList_append⟩
  · exact ⟨[], AllBlank.nil, (List.append_nil _).symm⟩

/-- A style sheet that was read, printed and read again has the structure it had. -/
theorem parse_print {file css : String} {n : Node} (o : Layout) (again : String)
    (hcomments : IsCommentFree css.toList) (hescapes : EscapesNoBlank css.toList)
    (ho : o.IndentsBlank) (h : parse file css = .ok n) :
    ∃ m, parse again (n.print o) = .ok m ∧ m.sameStructure n = true := by
  obtain ⟨nodes, rfl, hnodes⟩ := allFitIn_of_parse ⟨hcomments, hescapes⟩ h
  obtain ⟨back, hback, htext⟩ := exists_toList_finish o
    (Node.printAt o 0 (.block .sheet nodes))
  have hread : ReadsAs [] (Node.print o (.block .sheet nodes)).toList nodes [] := by
    have hend : ReadsAs [] (back ++ []) [] [] := ReadsAs.allBlank hback []
    rw [List.append_nil] at hend
    have hrules : EndsDeclaration o (contentWithin []) back := fun h => by cases h
    have h := (readsAs_printAll ho 0 none [] back nodes hnodes hrules).trans hend
    rw [List.append_nil] at h
    rw [Node.print, htext]
    exact h
  obtain ⟨hfree, hread⟩ := hread IsCommentFree.nil
  obtain ⟨further, q, hsame, hrun⟩ := hread [] .start
  refine ⟨.block .sheet further, ?_, ?_⟩
  · have hdone : (Reading.mk [] (further.reverse ++ []) ⟨q, []⟩).run = .ok further := by
      rw [Reading.run_eq, List.append_nil]
      exact congrArg _ further.reverse_reverse
    rw [parse, Reading.ofText, Chars.settle_eq_self hfree, Cursor.ofText, hrun, hdone]
  · rw [Node.sameStructure, hsame]
    rfl

/-- A text with a block inside of a block and a semicolon inside of a string. -/
def nestedText : String :=
  "@media print\x7b a , b \x7b c:';' \x7d\x7d"

theorem exists_parse_nestedText : ∃ n, parse unnamed nestedText = .ok n := by
  have hsettle : Chars.settle nestedText.toList = nestedText.toList :=
    Chars.settle_eq_self (IsCommentFree.of_not_mem (by decide))
  have hrun : ∃ nodes, (Reading.ofText nestedText.toList).run = .ok nodes := by
    rw [Reading.run_of_more rfl, Reading.run_of_more rfl, Reading.run_of_more rfl,
      Reading.run_of_more rfl, Reading.run_of_more rfl, Reading.run_eq]
    exact ⟨_, rfl⟩
  obtain ⟨nodes, hrun⟩ := hrun
  exact ⟨.block .sheet nodes, by rw [parse, hsettle, hrun]⟩

theorem parse_print_nestedText :
    ∃ n m, parse unnamed nestedText = .ok n ∧
      parse unnamed (n.print Layout.standard) = .ok m ∧ m.sameStructure n = true := by
  obtain ⟨n, hn⟩ := exists_parse_nestedText
  have hescapes : EscapesNoBlank nestedText.toList := fun c _ hpart =>
    absurd (hpart.subset List.mem_cons_self) (by decide)
  have hindent : Layout.standard.IndentsBlank := by
    intro indent h
    cases h
    decide
  obtain ⟨m, hm⟩ := parse_print Layout.standard unnamed (IsCommentFree.of_not_mem (by decide))
    hescapes hindent hn
  exact ⟨n, m, hn, hm⟩

end Sheet
end VendorPrefixing
