import VendorPrefixing.Proofs.Sheet.Readable
import VendorPrefixing.Proofs.Sheet.Selectors
import VendorPrefixing.Proofs.Text.Join
import VendorPrefixing.Sheet.Printer

/-!
# Printed style sheets, character by character

Both styles print the same marks; they differ in the white space around them, and in
the semicolon that the compact style leaves out after a declaration.

Main results:

- Theorem `Layout.exists_leaf_declaration`: the shape of a printed declaration.
- Theorem `Layout.exists_enclose`: the shape of a printed block.
- Theorem `Layout.exists_selectors`: joined selectors are those of a prelude again.
-/

namespace VendorPrefixing

namespace Item

/-- The selectors of a prelude are its arguments. -/
theorem map_toList_selectors {s : List Char} (h : s ≠ []) :
    (selectors s).map String.toList = Chars.arguments s := by
  rw [selectors, if_neg (by simpa using h), List.map_map, Chars.arguments]
  exact List.map_congr_left fun _ _ => String.toList_ofList

end Item

namespace Layout

variable {o : Layout}

/-- Levels are indented with white space, if at all. -/
def IndentsBlank (o : Layout) : Prop :=
  ∀ indent, o.style = .readable indent → AllBlank indent.toList

theorem allBlank_indentation (ho : o.IndentsBlank) (depth : Nat) :
    AllBlank (o.indentation depth).toList := by
  rw [indentation]
  split
  · rename_i indent hstyle
    intro c hc
    rw [String.toList_join, List.mem_flatMap] at hc
    obtain ⟨s, hs, hc⟩ := hc
    rw [List.eq_of_mem_replicate hs] at hc
    exact ho indent hstyle c hc
  · exact AllBlank.nil

/-- The shape of a printed declaration. -/
theorem exists_leaf_declaration (o : Layout) (depth : Nat) (d : Declaration) :
    ∃ gap ending, AllBlank gap ∧ (ending = [';'] ∨ o.style = .compact ∧ ending = []) ∧
      (o.leaf depth (.declaration d)).toList = (o.indentation depth).toList ++
        (d.property.toList ++ ':' :: (gap ++ (d.value.toList ++ ending))) := by
  rw [leaf]
  split
  · refine ⟨[' '], [';'], by decide, .inl rfl, ?_⟩
    simp
  · rename_i hstyle
    refine ⟨[], [], AllBlank.nil, .inr ⟨hstyle, rfl⟩, ?_⟩
    simp

/-- The shape of a printed statement. -/
theorem toList_leaf_statement (o : Layout) (depth : Nat) (kind : Statement) (text : String) :
    (o.leaf depth (.statement kind text)).toList = (o.indentation depth).toList ++
      '@' :: (kind.keyword.toList ++ ((' ' :: text.toList) ++ [';'])) := by
  simp [leaf]

theorem enclose_readable {indent : String} (hstyle : o.style = .readable indent) (depth : Nat)
    {head : Block} (hhead : head ≠ .sheet) (body : String) :
    o.enclose depth head body =
      o.indentation depth ++ o.heading depth head ++ " \x7b\n" ++ body ++
        (if body.isEmpty then "" else "\n") ++ o.indentation depth ++ "\x7d" := by
  unfold enclose
  rw [hstyle]
  cases head with
  | sheet => exact absurd rfl hhead
  | _ => rfl

theorem enclose_compact (hstyle : o.style = .compact) (depth : Nat) {head : Block}
    (hhead : head ≠ .sheet) (body : String) :
    o.enclose depth head body =
      o.indentation depth ++ o.heading depth head ++ "\x7b" ++ body ++ "\x7d" := by
  unfold enclose
  rw [hstyle]
  cases head with
  | sheet => exact absurd rfl hhead
  | _ => rfl

/-- The shape of a printed block. -/
theorem exists_enclose (ho : o.IndentsBlank) (depth : Nat) {head : Block}
    (hhead : head ≠ .sheet) (body : String) :
    ∃ gap before after, (gap = [] ∨ gap = [' ']) ∧ AllBlank before ∧ AllBlank after ∧
      (o.style = .compact → after = []) ∧
      (o.enclose depth head body).toList = (o.indentation depth).toList ++
        (((o.heading depth head).toList ++ gap) ++
          '{' :: (before ++ (body.toList ++ (after ++ ['}'])))) := by
  cases hstyle : o.style with
  | readable indent =>
    refine ⟨[' '], ['\n'], (if body.isEmpty then "" else "\n").toList ++
      (o.indentation depth).toList, .inr rfl, by decide, ?_, ?_, ?_⟩
    · refine AllBlank.append ?_ (allBlank_indentation ho depth)
      split <;> decide
    · intro h
      cases h
    · rw [enclose_readable hstyle depth hhead]
      simp
  | compact =>
    refine ⟨[], [], [], .inl rfl, AllBlank.nil, AllBlank.nil, fun _ => rfl, ?_⟩
    rw [enclose_compact hstyle depth hhead]
    simp

/-- Joined selectors are those of a prelude again. -/
theorem exists_selectors (ho : o.IndentsBlank) (depth : Nat) {s : List Char}
    (hs : Stretch.prelude.Accepts s) :
    ∃ t, (o.selectors depth (Item.selectors s)).toList = t ∧ t.head? = s.head? ∧
      Stretch.prelude.passes? .outside t = some .outside ∧ IsCommentFree t ∧
      Item.selectors (Chars.trim t) = Item.selectors s := by
  refine ⟨_, rfl, ?_⟩
  obtain ⟨blanks, hblanks, hjoin⟩ : ∃ blanks, AllBlank blanks ∧
      (o.selectors depth (Item.selectors s)).toList =
        (',' :: blanks).intercalate ((Item.selectors s).map String.toList) := by
    rw [selectors]
    split
    · refine ⟨['\n'] ++ (o.indentation depth).toList, ?_, ?_⟩
      · exact AllBlank.append (by decide) (allBlank_indentation ho depth)
      · rw [Text.toList_join, String.toList_append]
        rfl
    · exact ⟨[], AllBlank.nil, Text.toList_join _ _⟩
  rw [hjoin]
  cases s with
  | nil => exact ⟨rfl, rfl, IsCommentFree.nil, rfl⟩
  | cons c s =>
    have hsimple := hs.isSimple
    have hhead := Chars.head?_intercalate_arguments blanks (c :: s)
    have hcut := Chars.arguments_intercalate hblanks hsimple.escapesNoBlank
    rw [hs.trim_eq] at hhead
    rw [Item.map_toList_selectors (List.cons_ne_nil c s)]
    refine ⟨hhead, Stretch.passes?_intercalate hblanks rfl rfl hsimple.escapesNoBlank hs.passes,
      Chars.isCommentFree_intercalate hblanks hsimple.isCommentFree, ?_⟩
    -- The joined text begins with the same letter, and so trimming leaves some of it.
    have hne : Chars.trim ((',' :: blanks).intercalate (Chars.arguments (c :: s))) ≠ [] := by
      intro hnil
      have htrim := Chars.head?_trim_of_head? hhead (hs.isBlank_eq_false rfl)
      rw [hnil] at htrim
      cases htrim
    apply List.map_injective_iff.mpr fun _ _ => String.toList_inj.mp
    rw [Item.map_toList_selectors hne, Item.map_toList_selectors (List.cons_ne_nil c s),
      Chars.arguments_trim, hcut]

theorem selectors_singleton (o : Layout) (depth : Nat) (text : String) :
    o.selectors depth [text] = text := by
  rw [selectors]
  split <;> rfl

/-- What is printed behind the keyword of an at-rule is nothing where there is no prelude, or the
prelude behind a space; a page has its selectors there. -/
theorem exists_heading_eq (o : Layout) (depth : Nat) {k : AtKeyword} {s : List Char}
    {head : Block} (hhead : k.block? s = some head) :
    ∃ t, (o.heading depth head).toList = '@' :: (k.word.toList ++ t) ∧
      (s = [] ∧ t = [] ∨ t = ' ' :: s ∨
        k = .page ∧ t = ' ' :: (o.selectors depth (Item.selectors s)).toList) := by
  cases k with
  | statement _ => cases hhead
  | page =>
    cases hhead
    cases s with
    | nil => exact ⟨[], by simp [heading, AtKeyword.word, Item.selectors], .inl ⟨rfl, rfl⟩⟩
    | cons c s =>
      have hne : Item.selectors (c :: s) ≠ [] := by
        rw [Ne, ← List.map_eq_nil_iff (f := String.toList), Item.map_toList_selectors (by simp)]
        exact Chars.arguments_ne_nil _
      refine ⟨_, ?_, .inr (.inr ⟨rfl, rfl⟩)⟩
      rw [heading, String.toList_append]
      · rfl
      · exact hne
  | other name =>
    cases hhead
    rw [heading, selectors_singleton]
    cases s with
    | nil => exact ⟨[], by simp [AtKeyword.word], .inl ⟨rfl, rfl⟩⟩
    | cons c s => exact ⟨_, by simp [AtKeyword.word], .inr (.inl rfl)⟩
  | keyframes vendor | document vendor | media | supports =>
    cases hhead
    exact ⟨_, by simp [heading, AtKeyword.word], .inr (.inl rfl)⟩

/-- The printed head of an at-rule is its keyword with a prelude from which the same
head is read. -/
theorem exists_heading (ho : o.IndentsBlank) (depth : Nat) {k : AtKeyword} {s : List Char}
    {head : Block} (hs : Stretch.prelude.Accepts s) (hhead : k.block? s = some head) :
    ∃ t, (o.heading depth head).toList = '@' :: (k.word.toList ++ t) ∧
      (∀ c, t.head? = some c → c = ' ') ∧
      Stretch.prelude.passes? .outside t = some .outside ∧ IsCommentFree t ∧
      k.block? (Chars.trim t) = some head := by
  obtain ⟨t, htext, ht⟩ := exists_heading_eq o depth hhead
  have hspace : ∀ t, IsCommentFree t → IsCommentFree (' ' :: t) := fun t hfree =>
    hfree.append_of_not_mem (s := [' ']) (by decide)
  refine ⟨t, htext, ?_⟩
  rcases ht with ⟨rfl, rfl⟩ | rfl | ⟨rfl, rfl⟩
  · exact ⟨nofun, rfl, IsCommentFree.nil, hhead⟩
  · have htrim : Chars.trim (' ' :: s) = Chars.trim s := rfl
    refine ⟨fun c hc => (Option.some.inj hc).symm, hs.passes,
      hspace s hs.isSimple.isCommentFree, ?_⟩
    rwa [htrim, hs.trim_eq]
  · obtain ⟨t, rfl, -, hpass, hfree, hselectors⟩ := exists_selectors ho depth hs
    have htrim : ∀ t, Chars.trim (' ' :: t) = Chars.trim t := fun _ => rfl
    refine ⟨fun c hc => (Option.some.inj hc).symm, hpass, hspace _ hfree, ?_⟩
    rw [htrim, AtKeyword.block?, hselectors]
    exact hhead

theorem hides_eq_false {content : Content} {n : Node} (o : Layout) (h : n.FitsIn content) :
    o.hides n = false := by
  rw [hides, h.isComment_eq_false, Bool.and_false]

end Layout
end VendorPrefixing
