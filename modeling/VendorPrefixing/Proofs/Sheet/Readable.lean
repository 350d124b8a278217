import VendorPrefixing.Proofs.Sheet.Moves

/-!
# Trees that a text can be read as

The texts in a tree that was read are not arbitrary.  Each ends where its stretch
ended, and the head of a block comes from a prelude or from a keyword.  What a block
is made of decides which nodes may stand in it.

The text has to be simple: it holds no comments, and no backslash protects a
character that would be trimmed.

Main results:

- Theorem `Item.Written.fitsIn`: every item that is written fits in its block.
- Theorem `Reading.fitsIn_of_run`: every node that is read fits in its block.
-/

namespace VendorPrefixing

/-- A text without comments in which backslashes protect no white space. -/
structure IsSimple (s : List Char) : Prop where
  isCommentFree : IsCommentFree s
  escapesNoBlank : EscapesNoBlank s

theorem IsSimple.of_isInfix {s t : List Char} (h : IsSimple t) (hst : s <:+: t) : IsSimple s where
  isCommentFree := h.isCommentFree.of_isInfix hst
  escapesNoBlank := h.escapesNoBlank.of_isInfix hst

/-- A text that a stretch can consist of, without white space at its ends. -/
structure Stretch.Accepts (k : Stretch) (s : List Char) : Prop where
  trim_eq : Chars.trim s = s
  passes : k.passes? .outside s = some .outside
  isSimple : IsSimple s

theorem Stretch.Accepts.isBlank_eq_false {k : Stretch} {s : List Char} {c : Char}
    (h : k.Accepts s) (hc : s.head? = some c) : isBlank c = false := by
  rw [← h.trim_eq, Chars.head?_trim] at hc
  exact Chars.isBlank_of_head?_trimStart hc

/-- The name of a property. -/
structure IsProperty (s : List Char) : Prop where
  ne_nil : s ≠ []
  isPropertyChar : ∀ c ∈ s, Item.isPropertyChar c = true
  isSimple : IsSimple s

/-- Leaves that may stand among the given contents. -/
def Leaf.FitsIn (content : Content) : Leaf → Prop
  | declaration d =>
    content = .declarations ∧ IsProperty d.property.toList ∧
      Stretch.value.Accepts d.value.toList
  | comment _ => False
  | statement _ text => content = .rules ∧ Stretch.prelude.Accepts text.toList

/-- Heads of blocks that may stand among the given contents. -/
def Block.FitsIn (content : Content) (head : Block) : Prop :=
  match content with
  | .rules =>
    (∃ s, Stretch.prelude.Accepts s ∧ s.head? ≠ some '@' ∧ head = .rule (Item.selectors s)) ∨
      ∃ name s, IsName name.toList ∧ Stretch.prelude.Accepts s ∧
        (AtKeyword.ofName name).block? s = some head
  | .frames => ∃ s, Stretch.prelude.Accepts s ∧ head = .frame (Item.selectors s)
  | .declarations => False

/-- Items that may stand among the given contents. -/
def Item.FitsIn (content : Content) : Item → Prop
  | leaf l => l.FitsIn content
  | opening head _ => head.FitsIn content

namespace Node

mutual

/-- Nodes that may stand among the given contents. -/
def FitsIn (content : Content) : Node → Prop
  | leaf l => l.FitsIn content
  | block head children => head.FitsIn content ∧ AllFitIn head.content children

/-- Lists of nodes that may stand among the given contents. -/
def AllFitIn (content : Content) : List Node → Prop
  | [] => True
  | n :: rest => FitsIn content n ∧ AllFitIn content rest

end

theorem allFitIn_iff {content : Content} {ns : List Node} :
    AllFitIn content ns ↔ ∀ n ∈ ns, n.FitsIn content := by
  induction ns with
  | nil => exact iff_of_true trivial (List.forall_mem_nil _)
  | cons n ns ih => rw [AllFitIn, ih, List.forall_mem_cons]

end Node

theorem Block.FitsIn.ne_sheet {content : Content} {head : Block} (h : head.FitsIn content) :
    head ≠ .sheet := by
  rintro rfl
  cases content with
  | rules =>
    rcases h with ⟨_, _, _, h⟩ | ⟨name, s, _, _, h⟩
    · cases h
    · cases hk : AtKeyword.ofName name <;> rw [hk] at h <;> cases h
  | frames =>
    obtain ⟨_, _, h⟩ := h
    cases h
  | declarations => exact h

/-- Among declarations there is nothing else. -/
theorem Node.eq_leaf_of_fitsIn_declarations {n : Node} (h : n.FitsIn .declarations) :
    ∃ d, n = .leaf (.declaration d) := by
  cases n with
  | leaf l =>
    rw [Node.FitsIn] at h
    cases l with
    | declaration d => exact ⟨d, rfl⟩
    | comment _ => exact h.elim
    | statement _ _ => cases h.1
  | block head children =>
    rw [Node.FitsIn] at h
    exact h.1.elim

theorem Node.FitsIn.isComment_eq_false {content : Content} {n : Node} (h : n.FitsIn content) :
    n.isComment = false := by
  cases n with
  | leaf l =>
    rw [Node.FitsIn] at h
    cases l with
    | comment _ => exact h.elim
    | _ => rfl
  | block head children => rfl

/-! ## Items -/

/-- A stretch that is not the last of the text is accepted. -/
theorem Stretch.Fills.accepts {k : Stretch} {s rest : List Char} (h : k.Fills s rest)
    (hk : k.IsProper) (hs : IsSimple (s ++ rest)) (hrest : rest ≠ []) :
    k.Accepts (Chars.trim s) := by
  have hdrop : (s ++ rest).drop s.length ≠ [] := by rwa [List.drop_left]
  have hpass := passes?_of_measure hk hs.isCommentFree h hdrop
  rw [List.take_left] at hpass
  have hfront := hs.of_isInfix (List.prefix_append s rest).isInfix
  exact {
    trim_eq := Chars.trim_trim s
    passes := passes?_trim hk rfl (quotesNoBlank_of_none rfl) hfront.escapesNoBlank hpass
    isSimple := hfront.of_isInfix (Chars.trim_isInfix s) }

namespace Item

variable {content : Content} {p : Position} {s rest : List Char} {i : Item}

/-- Every item that is written fits in its block. -/
theorem Written.fitsIn (h : Written p rest content s i) (hs : IsSimple (s ++ rest))
    (hblank : ∀ d, (s ++ rest).head? = some d → isBlank d = false)
    (hend : content = .declarations → rest ≠ []) : i.FitsIn content := by
  have haccepts : ∀ (front : List Char) {text : List Char} {d : Char},
      s = front ++ (text ++ [d]) →
      Stretch.prelude.Fills text (d :: rest) → Stretch.prelude.Accepts (Chars.trim text) := by
    intro front text d heq htext
    refine htext.accepts Stretch.isProper_prelude (hs.of_isInfix ?_) (List.cons_ne_nil _ _)
    exact ⟨front, [], by simp [heq]⟩
  cases h with
  | comment _ =>
    have hopens := hs.isCommentFree.isPrefixOf_eq_false
    cases hopens
  | @rule text _ hat htext =>
    refine .inl ⟨_, haccepts [] rfl htext, ?_, rfl⟩
    cases text with
    | nil => simp
    | cons d text =>
      rw [Chars.head?_trim_of_head? rfl (hblank d rfl)]
      exact hat
  | frame _ htext => exact ⟨_, haccepts [] rfl htext, rfl⟩
  | @block name text head hname _ htext hhead =>
    have hisName : IsName (String.ofList name).toList := by rwa [String.toList_ofList]
    exact .inr ⟨.ofList name, _, hisName, haccepts ('@' :: name) rfl htext, hhead⟩
  | @statement name text kind _ _ htext _ =>
    refine ⟨rfl, ?_⟩
    rw [String.toList_ofList]
    exact haccepts ('@' :: name) rfl htext
  | @declaration property gap value semicolon _ hproperty hchars _ hvalue _ =>
    refine ⟨rfl, ?_, ?_⟩ <;> rw [String.toList_ofList]
    · exact ⟨hproperty, hchars, hs.of_isInfix ⟨[], gap ++ ':' :: (value ++ semicolon) ++ rest, by simp⟩⟩
    · refine hvalue.accepts Stretch.isProper_value (hs.of_isInfix ?_) ?_
      · exact ⟨property ++ (gap ++ [':']), [], by simp⟩
      · exact List.append_ne_nil_of_right_ne_nil _ (hend rfl)

end Item

/-! ## Runs -/

/-- The blocks of a stack fit in one another, and so do the nodes before them. -/
def StackFits : List OpenBlock → Prop
  | [] => True
  | o :: stack =>
    o.head.FitsIn (contentWithin stack) ∧ (∀ n ∈ o.before, n.FitsIn (contentWithin stack)) ∧
      StackFits stack

namespace Reading

variable {r r' : Reading} {nodes : List Node}

/-- Everything read so far fits, and a simple text is left. -/
structure Fits (r : Reading) : Prop where
  isSimple : IsSimple r.cursor.rest
  nodes : ∀ n ∈ r.nodes, n.FitsIn (contentWithin r.stack)
  stack : StackFits r.stack

/-- A move keeps everything fitting if the text does not end inside of a block. -/
theorem Fits.move (hr : r.Fits) (h : r.Moves r') (hend : r'.stack ≠ [] → r'.cursor.rest ≠ []) :
    r'.Fits := by
  have hsimple : ∀ {s c'}, r.cursor.Passes s c' → IsSimple c'.rest := fun hpasses =>
    hr.isSimple.of_isInfix ⟨_, [], by rw [List.append_nil, hpasses.rest_eq]⟩
  -- Behind white space an item is read from a text as simple as the whole.
  have hfits : ∀ {stack gap b s c' i}, r.cursor.Passes gap b → StartsItem b.rest →
      b.Passes s c' → Item.Written b.position c'.rest (contentWithin stack) s i →
      (contentWithin stack = .declarations → c'.rest ≠ []) →
      IsSimple c'.rest ∧ i.FitsIn (contentWithin stack) := by
    rintro stack gap b s c' i hfront ⟨d, hhead, hblank, -⟩ hpasses hitem hrest
    refine ⟨hsimple (hfront.trans hpasses), hitem.fitsIn ?_ ?_ hrest⟩
    · exact hpasses.rest_eq ▸ hsimple hfront
    · rw [← hpasses.rest_eq, hhead]
      exact fun f hf => Option.some.inj hf ▸ hblank
  cases h with
  | @close o stack nodes c c' gap hgap hpasses =>
    obtain ⟨hhead, hbefore, hstack⟩ := hr.stack
    have hchildren : Node.AllFitIn o.head.content nodes.reverse :=
      Node.allFitIn_iff.mpr fun n hn => hr.nodes n (List.mem_reverse.mp hn)
    exact ⟨hsimple hpasses, List.forall_mem_cons.mpr ⟨⟨hhead, hchildren⟩, hbefore⟩, hstack⟩
  | semicolon hgap hpasses => exact ⟨hsimple hpasses, hr.nodes, hr.stack⟩
  | @leaf stack nodes c b c' gap s l hgap hfront hstart hpasses hitem =>
    obtain ⟨hrest, hl⟩ := hfits hfront hstart hpasses hitem fun hcontent => hend fun hnil => by
      cases (show stack = [] from hnil)
      cases hcontent
    exact ⟨hrest, List.forall_mem_cons.mpr ⟨hl, hr.nodes⟩, hr.stack⟩
  | opening hgap hfront hstart hpasses hitem =>
    obtain ⟨hrest, hhead⟩ := hfits hfront hstart hpasses hitem fun _ => hend (List.cons_ne_nil _ _)
    exact ⟨hrest, List.forall_mem_nil _, hhead, hr.nodes, hr.stack⟩

/-- Every node that is read fits in its block. -/
theorem fitsIn_of_run (hr : r.Fits) (h : r.run = .ok nodes) :
    ∀ n ∈ nodes, n.FitsIn .rules := by
  refine induction_of_run (motive := fun r => r.Fits → ∀ n ∈ nodes, n.FitsIn .rules) h ?_ ?_ hr
  · rintro r hstack - rfl hr n hn
    have hfits := hr.nodes n (List.mem_reverse.mp hn)
    rwa [hstack] at hfits
  · exact fun r r' hmove hrun ih hr => ih (hr.move hmove (ne_nil_of_run hrun))

end Reading

/-- Every node of a simple text that is read fits in its block. -/
theorem Sheet.allFitIn_of_parse {file css : String} {n : Node} (hcss : IsSimple css.toList)
    (h : Sheet.parse file css = .ok n) :
    ∃ nodes, n = .block .sheet nodes ∧ Node.AllFitIn .rules nodes := by
  rw [Sheet.parse] at h
  split at h
  · rename_i nodes hrun
    cases h
    refine ⟨nodes, rfl, Node.allFitIn_iff.mpr (Reading.fitsIn_of_run ?_ hrun)⟩
    rw [Chars.settle_eq_self hcss.isCommentFree]
    exact ⟨hcss, List.forall_mem_nil _, trivial⟩
  · cases h

end VendorPrefixing
