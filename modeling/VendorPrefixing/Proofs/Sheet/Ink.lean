import VendorPrefixing.Proofs.Sheet.Leaves
import VendorPrefixing.Proofs.Sheet.RoundTrip
import VendorPrefixing.Proofs.Sheet.Shape

/-!
# Nothing is lost and nothing is doubled

White space, semicolons and capital letters are the only things that a style sheet may
lose when it is read and printed.  What is left of a text without them is its ink.  The
blocks around a place, the nodes read so far and the text that is left have the ink of the
whole text together, and no move changes that.

Main results:

- Theorem `Chars.ink_intercalate_arguments`: selectors have the ink of their prelude.
- Theorem `AtKeyword.map_toLower_word`: a printed keyword is in small letters what the
  keyword was that was read.
- Theorem `Node.ink_printAt`: a tree is printed with the same ink in every layout.
- Theorem `Reading.Moves.ink_eq`: a move keeps the ink of a reading.
- Theorem `Sheet.ink_print`: a style sheet is printed with the ink of its text.
-/

namespace VendorPrefixing

/-! ## Ink -/

/-- Capital letters and what they become. -/
theorem toNat_toLower_cases (c : Char) :
    c.toLower = c ∨ (65 ≤ c.toNat ∧ c.toNat ≤ 90) ∧ 97 ≤ c.toLower.toNat ∧ c.toLower.toNat ≤ 122 := by
  by_cases hcapital : c.val ≥ 'A'.val ∧ c.val ≤ 'Z'.val
  · have hlower : c.toLower.val = c.val + ('a'.val - 'A'.val) :=
      congrArg Char.val (dif_pos hcapital)
    have h65 : 'A'.val.toNat = 65 := rfl
    have h90 : 'Z'.val.toNat = 90 := rfl
    have h97 : 'a'.val.toNat = 97 := rfl
    simp only [ge_iff_le, UInt32.le_iff_toNat_le] at hcapital
    simp only [Char.toNat, hlower, UInt32.toNat_add, UInt32.toNat_sub]
    omega
  · exact .inl (dif_neg hcapital)

theorem isBlank_of_toNat {c : Char} (h : 65 ≤ c.toNat ∧ c.toNat ≤ 122) : isBlank c = false := by
  simp only [isBlank, Bool.or_eq_false_iff, Bool.and_eq_false_iff, decide_eq_false_iff_not,
    beq_eq_false_iff_ne]
  omega

namespace Chars

/-- Whether a character is more than white space and semicolons. -/
def isInk (c : Char) : Bool :=
  !isBlank c && c != ';'

/-- What is left of a text without white space, semicolons and capital letters. -/
def ink (s : List Char) : List Char :=
  (s.filter isInk).map Char.toLower

theorem isInk_toLower (c : Char) : isInk c.toLower = isInk c := by
  rcases toNat_toLower_cases c with h | ⟨hcapital, hsmall⟩
  · rw [h]
  · have hne : ∀ {d : Char}, 65 ≤ d.toNat → (d != ';') = true := by
      rintro d hd
      rw [bne_iff_ne]
      rintro rfl
      exact absurd hd (by decide)
    rw [isInk, isInk, isBlank_of_toNat ⟨by omega, hsmall.2⟩,
      isBlank_of_toNat ⟨hcapital.1, by omega⟩, hne (by omega), hne hcapital.1]

variable {s t blanks : List Char}

/-- It makes no difference whether letters become small before or after. -/
theorem ink_eq_filter (s : List Char) : ink s = (s.map Char.toLower).filter isInk := by
  rw [ink, List.filter_map]
  exact congrArg _ (List.filter_congr fun c _ => (isInk_toLower c).symm)

theorem ink_congr (h : s.map Char.toLower = t.map Char.toLower) : ink s = ink t := by
  rw [ink_eq_filter, h, ink_eq_filter]

@[simp]
theorem ink_nil : ink [] = [] :=
  rfl

@[simp]
theorem ink_append (s t : List Char) : ink (s ++ t) = ink s ++ ink t := by
  rw [ink, List.filter_append, List.map_append, ink, ink]

theorem ink_cons (c : Char) (s : List Char) : ink (c :: s) = ink [c] ++ ink s :=
  ink_append [c] s

theorem ink_of_allBlank (h : AllBlank blanks) : ink blanks = [] := by
  rw [ink, List.filter_eq_nil_iff.mpr, List.map_nil]
  intro c hc
  rw [isInk, h c hc]
  exact Bool.false_ne_true

theorem ink_trim (s : List Char) : ink (trim s) = ink s := by
  obtain ⟨front, hfront, hs⟩ := exists_append_trimStart s
  obtain ⟨back, hback, hstart⟩ := exists_trimEnd_append (trimStart s)
  calc ink (trim s) = ink front ++ (ink (trim s) ++ ink back) := by
        rw [ink_of_allBlank hfront, ink_of_allBlank hback, List.nil_append, List.append_nil]
    _ = ink (front ++ trimStart s) := by
        rw [← ink_append, ← ink_append, trim, ← hstart]
    _ = ink s := by rw [← hs]

/-- Selectors have the ink of their prelude. -/
theorem ink_intercalate_arguments (hblanks : AllBlank blanks) (s : List Char) :
    ink ((',' :: blanks).intercalate (arguments s)) = ink s := by
  induction s using arguments_induction with
  | single s m hm => rw [arguments_of_passes? hm, List.intercalate_singleton, ink_trim]
  | cons s t hpass ih =>
    rw [intercalate_arguments_append hpass, ink_append, ink_append, ih, ink_trim, ink_append,
      ink_cons ',' blanks, ink_cons ',' t, ink_of_allBlank hblanks, List.append_nil]

end Chars

/-! ## Keywords -/

/-- Only the letters of ASCII fold to such a letter in a text. -/
def FoldsPlainly (s : List Char) : Prop :=
  '\u017F' ∉ s ∧ '\u212A' ∉ s

theorem FoldsPlainly.of_isInfix {s t : List Char} (h : FoldsPlainly t) (hst : s <:+: t) : FoldsPlainly s :=
  ⟨fun hmem => h.1 (hst.subset hmem), fun hmem => h.2 (hst.subset hmem)⟩

theorem FoldsPlainly.map_toLower {s : List Char} (h : FoldsPlainly s) : FoldsPlainly (s.map Char.toLower) := by
  have hsame : ∀ {d : Char}, 122 < d.toNat → d ∉ s → d ∉ s.map Char.toLower := by
    intro d hd hs hmem
    obtain ⟨c, hc, rfl⟩ := List.mem_map.mp hmem
    rcases toNat_toLower_cases c with heq | ⟨-, -, hsmall⟩
    · exact hs (by rwa [heq])
    · omega
  exact ⟨hsame (by decide) h.1, hsame (by decide) h.2⟩

namespace AtKeyword

/-- There, folding is no more than making letters small. -/
theorem map_toLower_of_isFolded {word s : List Char} (hs : FoldsPlainly s)
    (h : Chars.isFolded word s = true) : s.map Char.toLower = word := by
  rw [Chars.isFolded, beq_iff_eq] at h
  induction word generalizing s with
  | nil =>
    rw [Chars.dropFolded?_nil] at h
    rw [Option.some.inj h]
    rfl
  | cons w word ih =>
    cases s with
    | nil => cases h
    | cons c s =>
      rw [Chars.dropFolded?] at h
      split at h
      · rename_i hc
        have hlower : foldCase c = c.toLower := by
          rw [foldCase, if_neg, if_neg]
          · rintro rfl
            exact hs.2 List.mem_cons_self
          · rintro rfl
            exact hs.1 List.mem_cons_self
        rw [List.map_cons, ← hlower, hc, ih (hs.of_isInfix (List.suffix_cons c s).isInfix) h]
      · cases h

/-- A keyword with or without a mark is the mark and the word. -/
theorem map_toLower_of_vendorMark? {word name : List Char} {vendor : Option String}
    (hname : FoldsPlainly name) (h : vendorMark? word name = some vendor) :
    name.map Char.toLower = (vendor.getD "").toList.map Char.toLower ++ word := by
  unfold vendorMark? at h
  split at h
  · rename_i hfolded
    cases h
    exact map_toLower_of_isFolded hname hfolded
  · split at h
    · rename_i rest _
      dsimp only at h
      split at h
      · rename_i bare hrest
        split at h
        · rename_i hmark
          cases h
          rw [Bool.and_eq_true] at hmark
          have hsplit : rest = rest.takeWhile isFoldedLetter ++ '-' :: bare := by
            rw [← hrest]
            conv_lhs => rw [← List.take_append_drop (rest.takeWhile isFoldedLetter).length rest]
            rw [← List.prefix_iff_eq_take.mp (List.takeWhile_prefix isFoldedLetter)]
          have hbare : FoldsPlainly bare := hname.of_isInfix
            ⟨'-' :: (rest.takeWhile isFoldedLetter ++ ['-']), [], by
              conv_rhs => rw [hsplit]
              simp⟩
          rw [Option.getD_some, String.toList_ofList, ← map_toLower_of_isFolded hbare hmark.2,
            ← List.map_append]
          conv_lhs => rw [hsplit]
          simp
        · cases h
      · cases h
    · cases h

/-- A printed keyword is in small letters what the keyword was that was read. -/
theorem map_toLower_word (name : String) (hname : FoldsPlainly name.toList) :
    (ofName name).word.toList.map Char.toLower = name.toList.map Char.toLower := by
  have hplain : FoldsPlainly (Text.lower name).toList := by
    rw [Text.lower, String.toList_ofList]
    exact hname.map_toLower
  have hlower : (Text.lower name).toList.map Char.toLower = name.toList.map Char.toLower := by
    rw [Text.lower, String.toList_ofList, List.map_map]
    exact List.map_congr_left fun c _ => toLower_toLower c
  have hmark : ∀ {bare : String} {vendor : Option String},
      vendorMark? bare.toList (Text.lower name).toList = some vendor →
      bare.toList.map Char.toLower = bare.toList →
      (vendor.getD "" ++ bare).toList.map Char.toLower = name.toList.map Char.toLower := by
    intro bare vendor h hbare
    rw [← hlower, map_toLower_of_vendorMark? hplain h, String.toList_append, List.map_append, hbare]
  unfold ofName
  dsimp only
  split
  · rename_i vendor h
    exact hmark h (by decide)
  · split
    · rename_i vendor h
      exact hmark h (by decide)
    · rw [← hlower]
      split <;> rename_i h
      all_goals first | exact hlower.symm | (rw [h]; rfl)

end AtKeyword

/-! ## Printed trees -/

/-- The ink of a leaf. -/
def Leaf.ink : Leaf → List Char
  | declaration d => Chars.ink d.property.toList ++ ':' :: Chars.ink d.value.toList
  | comment text => '/' :: '*' :: (Chars.ink text.toList ++ ['*', '/'])
  | statement kind text => '@' :: (Chars.ink kind.keyword.toList ++ Chars.ink text.toList)

/-- The ink of the head of a block. -/
def Block.ink (head : Block) : List Char :=
  Chars.ink (Layout.compact.heading 0 head).toList

namespace Node

mutual

/-- The ink of a tree below the style sheet. -/
def ink : Node → List Char
  | leaf l => l.ink
  | block head children => head.ink ++ '{' :: (inkAll children ++ ['}'])

/-- The ink of some trees, one after the other. -/
def inkAll : List Node → List Char
  | [] => []
  | n :: rest => ink n ++ inkAll rest

end

theorem inkAll_append (ns ms : List Node) : inkAll (ns ++ ms) = inkAll ns ++ inkAll ms := by
  induction ns with
  | nil => rfl
  | cons n ns ih => rw [List.cons_append, inkAll, inkAll, ih, List.append_assoc]

theorem inkAll_reverse_cons (n : Node) (ns : List Node) :
    inkAll (n :: ns).reverse = inkAll ns.reverse ++ n.ink := by
  rw [List.reverse_cons, inkAll_append, inkAll, inkAll, List.append_nil]

end Node

namespace Layout

variable {o : Layout}

theorem ink_join (separator : String) (texts : List String) :
    Chars.ink (Text.join separator texts).toList =
      (Chars.ink separator.toList).intercalate (texts.map fun s => Chars.ink s.toList) := by
  induction texts with
  | nil => rfl
  | cons s rest ih =>
    cases rest with
    | nil => rw [Text.join, List.map_singleton, List.intercalate_singleton]
    | cons t rest =>
      rw [Text.join, String.toList_append, String.toList_append, Chars.ink_append,
        Chars.ink_append, ih]
      · simp only [List.map_cons]
        rw [List.intercalate_cons_cons]
      · simp

/-- Selectors are joined with commas. -/
theorem ink_selectors (ho : o.IndentsBlank) (depth : Nat) (texts : List String) :
    Chars.ink (o.selectors depth texts).toList =
      [','].intercalate (texts.map fun s => Chars.ink s.toList) := by
  rw [selectors]
  split
  · rw [ink_join, String.toList_append, Chars.ink_append,
      Chars.ink_of_allBlank (allBlank_indentation ho depth)]
    rfl
  · exact ink_join "," texts

theorem indentsBlank_compact : compact.IndentsBlank := by
  intro indent h
  cases h

theorem ink_heading (ho : o.IndentsBlank) (depth : Nat) (head : Block) :
    Chars.ink (o.heading depth head).toList = head.ink := by
  have hselectors : ∀ texts, Chars.ink (o.selectors depth texts).toList =
      Chars.ink (compact.selectors 0 texts).toList := fun texts =>
    (ink_selectors ho depth texts).trans (ink_selectors indentsBlank_compact 0 texts).symm
  rw [Block.ink]
  cases head with
  | rule texts => exact hselectors texts
  | frame texts => exact hselectors texts
  | page texts =>
    cases texts with
    | nil => rfl
    | cons s texts =>
      rw [heading, heading, String.toList_append, String.toList_append, Chars.ink_append,
        Chars.ink_append, hselectors]
      · simp
      · simp
  | _ => rfl

theorem ink_leaf (ho : o.IndentsBlank) (depth : Nat) (l : Leaf) :
    Chars.ink (o.leaf depth l).toList = l.ink := by
  have hindent := Chars.ink_of_allBlank (allBlank_indentation ho depth)
  cases l with
  | declaration d =>
    obtain ⟨gap, ending, hgap, hending, htext⟩ := exists_leaf_declaration o depth d
    have hnothing : Chars.ink ending = [] := by
      rcases hending with rfl | ⟨-, rfl⟩ <;> rfl
    rw [htext, Chars.ink_append, hindent, Chars.ink_append, Chars.ink_cons ':', Chars.ink_append,
      Chars.ink_append, Chars.ink_of_allBlank hgap, hnothing, List.append_nil]
    rfl
  | comment text =>
    rw [leaf, String.toList_append, Chars.ink_append, hindent]
    rw [String.toList_append, String.toList_append, Chars.ink_append, Chars.ink_append,
      List.append_assoc]
    rfl
  | statement kind text =>
    rw [toList_leaf_statement, Chars.ink_append, hindent, Chars.ink_cons '@', Chars.ink_append,
      Chars.ink_append]
    exact congrArg (Chars.ink ['@'] ++ Chars.ink kind.keyword.toList ++ ·) (List.append_nil _)

theorem ink_enclose (ho : o.IndentsBlank) (depth : Nat) {head : Block} (hhead : head ≠ .sheet)
    (body : String) :
    Chars.ink (o.enclose depth head body).toList =
      head.ink ++ '{' :: (Chars.ink body.toList ++ ['}']) := by
  obtain ⟨gap, before, after, hgap, hbefore, hafter, -, htext⟩ := exists_enclose ho depth hhead body
  have hblank : AllBlank gap := by
    rcases hgap with rfl | rfl <;> decide
  rw [htext, Chars.ink_append, Chars.ink_of_allBlank (allBlank_indentation ho depth),
    Chars.ink_append, Chars.ink_append, ink_heading ho, Chars.ink_of_allBlank hblank,
    Chars.ink_cons '{', Chars.ink_append, Chars.ink_of_allBlank hbefore, Chars.ink_append,
    Chars.ink_append, Chars.ink_of_allBlank hafter, List.append_nil]
  rfl

theorem ink_separator (o : Layout) (content : Content) (previous : Option Node) :
    Chars.ink (o.separator content previous).toList = [] := by
  unfold separator
  split
  · rfl
  · split
    · rfl
    · rfl
    · split <;> rfl
    · rfl

theorem ink_finish (o : Layout) (text : String) :
    Chars.ink (o.finish text).toList = Chars.ink text.toList := by
  rw [finish]
  split
  · split
    · rfl
    · rw [String.toList_append, Chars.ink_append]
      exact List.append_nil _
  · rfl

end Layout

namespace Node

variable {o : Layout} {content : Content}

/-- No comment stands among the leaves. -/
def IsUncommented (leaves : List Leaf) : Prop :=
  ∀ text, Leaf.comment text ∉ leaves

theorem hides_eq_false_of_isUncommented (o : Layout) {n : Node} (hn : IsUncommented n.leaves) :
    o.hides n = false := by
  have hcomment : n.isComment = false := by
    cases n with
    | block head children => rfl
    | leaf l =>
      cases l with
      | comment text => exact absurd (List.mem_singleton_self _) (hn text)
      | _ => rfl
  rw [Layout.hides, hcomment, Bool.and_false]

mutual

/-- A tree is printed with the same ink in every layout. -/
theorem ink_printAt (ho : o.IndentsBlank) (depth : Nat) {content : Content} :
    (n : Node) → n.StandsIn content → IsUncommented n.leaves →
      Chars.ink (n.printAt o depth).toList = n.ink
  | leaf l, _, _ => by
    rw [printAt, Layout.ink_leaf ho, ink]
  | block head children, hn, hcomments => by
    have hsheet : head ≠ .sheet := by
      rintro rfl
      exact hn.1
    rw [printAt, Layout.ink_enclose ho depth hsheet,
      ink_printAll ho _ none children hn.2 hcomments, ink]

theorem ink_printAll (ho : o.IndentsBlank) (depth : Nat) {content : Content}
    (previous : Option Node) :
    (ns : List Node) → AllStandIn content ns → IsUncommented (leavesAll ns) →
      Chars.ink (printAll o content depth previous ns).toList = inkAll ns
  | [], _, _ => rfl
  | n :: ns, hns, hcomments => by
    have hn : IsUncommented n.leaves := fun text hmem =>
      hcomments text (List.mem_append_left _ hmem)
    have hrest : IsUncommented (leavesAll ns) := fun text hmem =>
      hcomments text (List.mem_append_right _ hmem)
    rw [printAll, if_neg (by rw [hides_eq_false_of_isUncommented o hn]; exact Bool.false_ne_true),
      String.toList_append, String.toList_append, Chars.ink_append, Chars.ink_append,
      Layout.ink_separator, ink_printAt ho depth n hns.1 hn,
      ink_printAll ho depth (some n) ns hns.2 hrest, inkAll, List.nil_append]

end

end Node

/-! ## Written items -/

/-- A prelude has the ink of its selectors. -/
theorem Item.ink_selectors (text : List Char) :
    Chars.ink (Layout.compact.selectors 0 (selectors (Chars.trim text))).toList =
      Chars.ink text := by
  have hjoin : (Layout.compact.selectors 0 (selectors (Chars.trim text))).toList =
      [','].intercalate ((selectors (Chars.trim text)).map String.toList) :=
    Text.toList_join "," _
  rw [hjoin, ← Chars.ink_trim text]
  cases htrim : Chars.trim text with
  | nil => rfl
  | cons c s =>
    rw [map_toList_selectors (List.cons_ne_nil c s)]
    exact Chars.ink_intercalate_arguments AllBlank.nil (c :: s)

/-- The head of a block has the ink of its keyword and its prelude. -/
theorem AtKeyword.ink_block? {k : AtKeyword} {text : List Char} {head : Block}
    (h : k.block? (Chars.trim text) = some head) :
    head.ink = '@' :: (Chars.ink k.word.toList ++ Chars.ink text) := by
  obtain ⟨t, htext, ht⟩ := Layout.compact.exists_heading_eq 0 h
  have hink : Chars.ink t = Chars.ink text := by
    rcases ht with ⟨htrim, rfl⟩ | rfl | ⟨-, rfl⟩
    · rw [← Chars.ink_trim text, htrim]
    · exact Chars.ink_trim text
    · exact Item.ink_selectors text
  rw [Block.ink, htext, Chars.ink_cons '@', Chars.ink_append, hink]
  rfl

/-- The ink of an item. -/
def Item.ink : Item → List Char
  | leaf l => l.ink
  | opening head _ => head.ink ++ ['{']

/-- An item is written with its ink. -/
theorem Item.Written.ink_eq {p : Position} {content : Content} {s rest : List Char} {i : Item}
    (h : Written p rest content s i) (hfree : IsCommentFree (s ++ rest))
    (hplain : FoldsPlainly s) : Chars.ink s = i.ink := by
  have hname : ∀ name : List Char, name <:+: s →
      Chars.ink (AtKeyword.ofName (.ofList name)).word.toList = Chars.ink name := by
    intro name hpart
    have hlower := AtKeyword.map_toLower_word (.ofList name)
      (by rw [String.toList_ofList]; exact hplain.of_isInfix hpart)
    rw [String.toList_ofList] at hlower
    exact Chars.ink_congr hlower
  cases h with
  | comment _ =>
    have hopens := hfree.isPrefixOf_eq_false
    cases hopens
  | @rule text =>
    rw [Chars.ink_append, ← Item.ink_selectors text]
    rfl
  | @frame text =>
    rw [Chars.ink_append, ← Item.ink_selectors text]
    rfl
  | @block name text head _ _ _ hhead =>
    rw [Item.ink, AtKeyword.ink_block? hhead, hname name ⟨['@'], text ++ ['{'], by simp⟩,
      Chars.ink_cons '@', Chars.ink_append, Chars.ink_append, List.cons_append, List.append_assoc]
    rfl
  | @statement name text kind _ _ _ hkind =>
    have hword := hname name ⟨['@'], text ++ [';'], by simp⟩
    rw [hkind] at hword
    have hnothing : Chars.ink [';'] = [] := rfl
    rw [Item.ink, Leaf.ink, Chars.ink_cons '@', Chars.ink_append, Chars.ink_append, ← hword,
      String.toList_ofList, Chars.ink_trim, hnothing, List.append_nil]
    rfl
  | @declaration property gap value semicolon _ _ _ hgap _ hsemicolon =>
    have hnothing : Chars.ink semicolon = [] := by
      rcases hsemicolon with rfl | ⟨rfl, -⟩ <;> rfl
    rw [Item.ink, Leaf.ink, Chars.ink_append, Chars.ink_append, Chars.ink_of_allBlank hgap,
      Chars.ink_cons ':', Chars.ink_append, hnothing, List.append_nil, String.toList_ofList,
      String.toList_ofList, Chars.ink_trim]
    rfl

/-! ## Readings -/

/-- The ink of the blocks around a place and of what stands before it in them. -/
def stackInk : List OpenBlock → List Char
  | [] => []
  | o :: stack => stackInk stack ++ (Node.inkAll o.before.reverse ++ (o.head.ink ++ ['{']))

namespace Reading

variable {r r' : Reading} {nodes : List Node}

/-- The ink of what has been read and of what is left. -/
def ink (r : Reading) : List Char :=
  stackInk r.stack ++ (Node.inkAll r.nodes.reverse ++ Chars.ink r.cursor.rest)

/-- A move keeps the ink of a reading. -/
theorem Moves.ink_eq (h : r.Moves r') (hfree : IsCommentFree r.cursor.rest)
    (hplain : FoldsPlainly r.cursor.rest) : r'.ink = r.ink := by
  -- What an item is read from has its ink, and white space has none.
  have hitem : ∀ {stack : List OpenBlock} {gap b s c' i}, r.cursor.Passes gap b → AllBlank gap →
      b.Passes s c' → Item.Written b.position c'.rest (contentWithin stack) s i →
      Chars.ink r.cursor.rest = i.ink ++ Chars.ink c'.rest := by
    intro stack gap b s c' i hfront hgap hpasses hwritten
    have hrest : r.cursor.rest = gap ++ (s ++ c'.rest) := by
      rw [hfront.rest_eq, hpasses.rest_eq]
    have hs := hwritten.ink_eq (hfree.of_isInfix ⟨gap, [], by simp [hrest]⟩)
      (hplain.of_isInfix ⟨gap, c'.rest, by simp [hrest]⟩)
    rw [hrest, Chars.ink_append, Chars.ink_append, Chars.ink_of_allBlank hgap, hs,
      List.nil_append]
  cases h with
  | @close o stack nodes c c' gap hgap hpasses =>
    have hrest : Chars.ink c.rest = '}' :: Chars.ink c'.rest := by
      rw [hpasses.rest_eq, Chars.ink_append, Chars.ink_append, Chars.ink_of_allBlank hgap]
      rfl
    rw [ink, ink, Node.inkAll_reverse_cons, stackInk, Node.ink, hrest]
    simp
  | @semicolon stack nodes c c' gap hgap hpasses =>
    have hrest : Chars.ink c.rest = Chars.ink c'.rest := by
      rw [hpasses.rest_eq, Chars.ink_append, Chars.ink_append, Chars.ink_of_allBlank hgap]
      rfl
    rw [ink, ink, hrest]
  | @leaf stack nodes c b c' gap s l hgap hfront hstart hpasses hwritten =>
    have hrest := hitem hfront hgap hpasses hwritten
    dsimp only at hrest
    rw [ink, ink, Node.inkAll_reverse_cons, hrest, Node.ink, Item.ink, List.append_assoc]
  | @opening stack nodes c b c' gap s head brace hgap hfront hstart hpasses hwritten =>
    have hrest := hitem hfront hgap hpasses hwritten
    dsimp only at hrest
    rw [ink, ink, stackInk, hrest, Item.ink]
    simp [Node.inkAll]

/-- What is read has the ink of the text. -/
theorem inkAll_of_run (h : r.run = .ok nodes) (hfree : IsCommentFree r.cursor.rest)
    (hplain : FoldsPlainly r.cursor.rest) : Node.inkAll nodes = r.ink := by
  refine induction_of_run (motive := fun r => IsCommentFree r.cursor.rest →
    FoldsPlainly r.cursor.rest → Node.inkAll nodes = r.ink) h ?_ ?_ hfree hplain
  · rintro r hstack hblank rfl - -
    rw [ink, hstack, Chars.ink_of_allBlank hblank, List.append_nil]
    rfl
  · intro r r' hmove _ ih hfree hplain
    obtain ⟨s, hs⟩ := hmove.exists_passes
    have hsuffix : r'.cursor.rest <:+: r.cursor.rest := ⟨s, [], by simp [hs.rest_eq]⟩
    rw [ih (hfree.of_isInfix hsuffix) (hplain.of_isInfix hsuffix), hmove.ink_eq hfree hplain]

/-- No comment is read from a text without comments. -/
theorem isUncommented_of_run {text : List Char} (h : (ofText text).run = .ok nodes)
    (hfree : IsCommentFree text) : Node.IsUncommented (Node.leavesAll nodes) := by
  have hstart : (ofText text).HasLeaves (fun l => ∀ text, l ≠ .comment text)
      fun c => IsCommentFree c.rest :=
    ⟨hfree, List.forall_mem_nil _, List.forall_mem_nil _⟩
  refine fun text hmem => forall_leaves_of_run hstart h ?_ ?_ _ hmem text rfl
  · exact fun c s c' hs hc => hc.of_isInfix ⟨s, [], by simp [hs.rest_eq]⟩
  · rintro c s c' content l hc hs hitem text rfl
    rw [hs.rest_eq] at hc
    cases hitem with
    | comment _ =>
      have hopens := hc.isPrefixOf_eq_false
      cases hopens

end Reading

namespace Sheet

/-- A style sheet is printed with the ink of its text. -/
theorem ink_print {file css : String} {n : Node} (o : Layout) (ho : o.IndentsBlank)
    (hcomments : IsCommentFree css.toList) (hplain : FoldsPlainly css.toList)
    (h : parse file css = .ok n) :
    Chars.ink (n.print o).toList = Chars.ink css.toList := by
  obtain ⟨nodes, rfl, hstands⟩ := allStandIn_of_parse h
  have hrun := (parse_eq_ok_iff hcomments).mp h
  have hleaves := Reading.isUncommented_of_run hrun hcomments
  rw [Node.print, Layout.ink_finish]
  have hprint : Node.printAt o 0 (.block .sheet nodes) = Node.printAll o .rules 0 none nodes := rfl
  rw [hprint, Node.ink_printAll ho 0 none nodes hstands hleaves,
    Reading.inkAll_of_run hrun hcomments hplain]
  rfl

/-- A rule inside of a conditional block keeps all but white space and semicolons. -/
theorem ink_print_nestedText :
    ∃ n, parse unnamed nestedText = .ok n ∧
      Chars.ink (n.print Layout.standard).toList = Chars.ink nestedText.toList ∧
      Chars.ink nestedText.toList = "@mediaprint\x7ba,b\x7bc:''\x7d\x7d".toList := by
  obtain ⟨n, hn⟩ := exists_parse_nestedText
  have hindent : Layout.standard.IndentsBlank := by
    intro indent h
    cases h
    decide
  have hfree : IsCommentFree nestedText.toList := IsCommentFree.of_not_mem (by decide)
  have hplain : FoldsPlainly nestedText.toList := ⟨by decide, by decide⟩
  exact ⟨n, hn, ink_print Layout.standard hindent hfree hplain hn, by decide⟩

end Sheet
end VendorPrefixing
