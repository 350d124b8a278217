import VendorPrefixing.Marking.Draft
import VendorPrefixing.Proofs.Draft.Tour
import VendorPrefixing.Proofs.Draft.Walk
import VendorPrefixing.Proofs.Marking.Written

/-!
# Visits to declarations and animations

What a run over a draft does at one declaration.  Offering declarations to the block of it puts
those in front of it that the block has not got yet; the declaration itself can change or be
removed afterwards.  Copies of an animation are offered to the whole style sheet.

Main results:

- Theorem `Plan.fronts_foldl`: what is offered to a block one after the other is taken as the
  missing part of a list is.
- Theorems `Plan.visits_property`, `Plan.visits_value` and `Plan.visits_useless`: each visit makes
  of a declaration what the pass over the style sheet makes of it.
- Theorems `Plan.visits_copy` and `Plan.visits_uselessAnimation`: so does each visit to an
  animation.
-/

namespace VendorPrefixing

namespace Draft

variable {d e : Draft} {c q : Handle} {m : DraftNode} {ns : List Node}

/-- The declarations of a block after trees have been put into it. -/
theorem Fronts.liveDeclarations_perm (h : d.Fronts q c ns e) (hd : d.Linked [0]) :
    (e.liveDeclarations q).Perm (Node.declarations ns ++ d.liveDeclarations q) := by
  obtain ⟨p, front, back, new, hp, heq, hafter, hnew⟩ := h.block
  have hsame : ∀ cs, cs ⊆ p.children → e.trees cs = d.trees cs := fun cs hsub =>
    hd.trees_congr_of_children hp hsub fun k hk hlt => h.others k hlt (Nat.ne_of_gt hk)
  rw [h.linked.liveDeclarations_eq_trees hafter, hd.liveDeclarations_eq_trees hp]
  dsimp only
  rw [heq, trees_append, trees_append, trees_append, hnew, hsame front (by simp [heq]),
    hsame (c :: back) (by simp [heq]), Node.declarations_append, Node.declarations_append,
    Node.declarations_append, ← List.append_assoc]
  exact List.Perm.append_right _ List.perm_append_comm

end Draft

namespace Plan

open Draft

variable {d e : Draft} {s : Statistics} {c q : Handle} {m : DraftNode}
  {same : Declaration → Declaration → Bool} {property value : String}

/-! ## Offering declarations -/

theorem insertInFront_of_contains (hm : d.find? c = some m) (hparent : m.parent = some q)
    (h : d.contains q (property, value) = true) :
    insertInFront c (d, s) property value = (d, s) := by
  rw [insertInFront, insertBefore_eq_none_of_contains hm hparent h]

/-- A pair that is not there is put in front of the node. -/
theorem insertInFront_of_not_contains (hd : d.Linked [0]) (hm : d.find? c = some m)
    (hparent : m.parent = some q) (h : d.contains q (property, value) = false) :
    ∃ e, insertInFront c (d, s) property value = (e, s.merge (.ofAdded 1)) ∧
      d.Fronts q c [.ofDeclaration property value m.position] e := by
  have hsome : d.insertBefore c property value ≠ none := fun hnone => by
    rw [contains_iff.mpr ((insertBefore_eq_none_iff hm hparent).mp hnone)] at h
    cases h
  obtain ⟨⟨new, e⟩, hnew⟩ := Option.ne_none_iff_exists'.mp hsome
  obtain ⟨rfl, hadds⟩ := hd.adds_of_insertBefore hm hparent hnew
  have hfronts := (hd.inserts_of_insertBefore hnew).fronts hd hm hparent
  rw [trees_of_live hadds.new rfl (nodeAt?_leaf hadds.new rfl)] at hfronts
  refine ⟨e, ?_, hfronts⟩
  rw [insertInFront, hnew]
  rfl

/-- A step that puts a declaration in front of the node `c` of the block `q`, unless the block
has one that counts as the same. -/
def Offers (put : Session → Declaration → Session) (same : Declaration → Declaration → Bool)
    (c q : Handle) : Prop :=
  ∀ (d : Draft) (s : Statistics) (m : DraftNode) (form : Declaration), d.Linked [0] →
    d.find? c = some m → m.parent = some q → form.position = m.position →
    ((d.liveDeclarations q).any (same form) = true → put (d, s) form = (d, s)) ∧
    ((d.liveDeclarations q).any (same form) = false →
      ∃ e, put (d, s) form = (e, s.merge (.ofAdded 1)) ∧
        d.Fronts q c [.leaf (.declaration form)] e)

/-- What is offered to a block one after the other is taken as the missing part of a list is. -/
theorem fronts_foldl {put : Session → Declaration → Session} (hput : Offers put same c q)
    (hd : d.Linked [0]) (hm : d.find? c = some m) (hparent : m.parent = some q)
    {known : List Declaration}
    (hknown : ∀ form, (d.liveDeclarations q).any (same form) = known.any (same form))
    {forms : List Declaration} (hforms : ∀ form ∈ forms, form.position = m.position)
    (s : Statistics) :
    let new := Node.missing same known forms
    d.Fronts q c (new.map (.leaf ∘ .declaration)) (forms.foldl put (d, s)).1 ∧
      (forms.foldl put (d, s)).2 = s.merge (.ofAdded new.length) := by
  induction forms generalizing d known s with
  | nil => exact ⟨.refl hd hm hparent, rfl⟩
  | cons form rest ih =>
    obtain ⟨hform, hrest⟩ := List.forall_mem_cons.mp hforms
    obtain ⟨hthere, hmissing⟩ := hput d s m form hd hm hparent hform
    rw [List.foldl_cons, Node.missing, ← hknown form]
    cases hany : (d.liveDeclarations q).any (same form) with
    | true =>
      rw [hthere hany, if_pos rfl]
      exact ih hd hm hknown hrest s
    | false =>
      obtain ⟨e, hstep, hfronts⟩ := hmissing hany
      have hlater : ∀ other, (e.liveDeclarations q).any (same other) =
          (form :: known).any (same other) := fun other => by
        rw [(hfronts.liveDeclarations_perm hd).any_eq, List.any_append, hknown other]
        simp
      rw [hstep, if_neg Bool.false_ne_true]
      obtain ⟨hlast, hcount⟩ := ih hfronts.linked (hfronts.find?_eq hd hm hparent) hlater hrest
        (s.merge (.ofAdded 1))
      refine ⟨hfronts.trans hd hm hparent hlast, ?_⟩
      rw [hcount, Statistics.merge_ofAdded_add, List.length_cons, Nat.add_comm]

/-! ## Visits to declarations -/

section Visit

variable (plan : Plan)

theorem offers_unlessProperty (c q : Handle) : Offers (fun now form =>
    if now.1.containsProperty q form.property then now
    else insertInFront c now form.property form.value) (fun d e => d.property == e.property) c q := by
  intro d s m form hd hm hparent hposition
  have hsame : d.containsProperty q form.property =
      (d.liveDeclarations q).any fun e => form.property == e.property := by
    rw [containsProperty]
    exact congrArg _ (funext fun e => Bool.beq_comm)
  dsimp only
  rw [← hsame]
  refine ⟨fun hthere => if_pos hthere, fun hmissing => ?_⟩
  have hpair : d.contains q (form.property, form.value) = false :=
    Bool.eq_false_iff.mpr fun h => Bool.eq_false_iff.mp hmissing (contains_of_pair h)
  rw [if_neg (Bool.eq_false_iff.mp hmissing)]
  obtain ⟨e, hstep, hfronts⟩ := insertInFront_of_not_contains (s := s) hd hm hparent hpair
  rw [Node.ofDeclaration, ← hposition] at hfronts
  exact ⟨e, hstep, hfronts⟩

theorem offers_unlessPair (c q : Handle) : Offers (fun now form =>
    insertInFront c now form.property form.value) (fun d e => d.pair == e.pair) c q := by
  intro d s m form hd hm hparent hposition
  have hsame : d.contains q (form.property, form.value) =
      (d.liveDeclarations q).any fun e => form.pair == e.pair := by
    rw [contains]
    exact congrArg _ (funext fun e => Bool.beq_comm)
  dsimp only
  rw [← hsame]
  refine ⟨insertInFront_of_contains hm hparent, fun hmissing => ?_⟩
  obtain ⟨e, hstep, hfronts⟩ := insertInFront_of_not_contains (s := s) hd hm hparent hmissing
  rw [Node.ofDeclaration, ← hposition] at hfronts
  exact ⟨e, hstep, hfronts⟩

/-- The marked forms of a property are put in front of it. -/
theorem visits_property : Visits plan.visitProperty
    (Node.weaveTurn (fun d e => d.property == e.property)
      fun vendor d => (plan.propertyForms vendor d, d)) := by
  intro d s c q m vendor decl hd hm hparent hlive hlabel
  have hdecl : d.declaration? c = some decl := declaration?_eq_some_iff.mpr ⟨m, hm, hlabel⟩
  have hforms : ∀ form ∈ plan.propertyForms vendor decl, form.position = m.position :=
    fun form hform => by rw [mem_propertyForms hform, DraftNode.position, hlabel]
  obtain ⟨hfronts, hcount⟩ := fronts_foldl (offers_unlessProperty c q) hd hm hparent
    (fun _ => rfl) hforms s
  have hturns := hfronts.turns hd
  rw [trees_of_live hm hlive (nodeAt?_leaf hm hlabel)] at hturns
  rw [visitProperty]
  dsimp only
  rw [hdecl]
  dsimp only
  rw [Node.weaveTurn]
  dsimp only
  rw [List.map_append]
  exact ⟨hturns, hcount⟩

theorem marksFor_of_marked (hvendors : plan.vendors.Nodup) (vendor : Option String)
    {decl : Declaration} {own : String} (hown : vendorOf? decl.property = some own) :
    plan.marksFor vendor decl = [] ∨ plan.marksFor vendor decl = [own] := by
  have hnodup : (plan.marksFor vendor decl).Nodup := hvendors.filter _
  have hall : ∀ mark ∈ plan.marksFor vendor decl, own = mark := fun _ hmark =>
    eq_of_mem_marksFor hmark hown
  match hmarks : plan.marksFor vendor decl with
  | [] => exact .inl rfl
  | [mark] => exact .inr (by rw [hall mark (by simp [hmarks])])
  | first :: second :: rest =>
    rw [hmarks] at hnodup hall
    exact absurd ((hall first (by simp)).symm.trans (hall second (by simp)))
      (List.ne_of_not_mem_cons (List.nodup_cons.mp hnodup).1)

/-- Marking the value of a declaration for one mark after the other offers the values to its
block, and may then change the declaration itself. -/
theorem foldl_visitMark_cases (hvendors : plan.vendors.Nodup) (vendor : Option String)
    (decl : Declaration) (now : Session) :
    let offered := (plan.markValue vendor decl).1.foldl
      (fun now form => insertInFront c now form.property form.value) now
    let after := (plan.marksFor vendor decl).foldl (plan.visitMark c decl) now
    ((plan.markValue vendor decl).2 = decl ∧ after = offered) ∨
      ∃ last, (plan.markValue vendor decl).2 = { decl with value := last } ∧
        after = (offered.1.setValue c last, offered.2) := by
  cases hown : vendorOf? decl.property with
  | none =>
    refine .inl ⟨by rw [markValue_of_unmarked hown], ?_⟩
    rw [markValue_of_unmarked hown, allMarkedValues, List.foldl_map, List.foldl_flatMap]
    refine congrArg (List.foldl · now _) (funext fun now => funext fun mark => ?_)
    rw [visitMark, hown, if_neg (Option.some_ne_none mark).symm]
  | some own =>
    rcases marksFor_of_marked plan hvendors vendor hown with hmarks | hmarks
    · have hnil : plan.allMarkedValues vendor decl = [] := by rw [allMarkedValues, hmarks]; rfl
      rw [markValue_of_allMarkedValues_eq_nil hnil, hmarks]
      exact .inl ⟨rfl, rfl⟩
    · have hvalues : plan.allMarkedValues vendor decl =
          markedValues (plan.featuresOf decl) own decl.value := by
        rw [allMarkedValues, hmarks, List.flatMap_singleton]
      rw [markValue_of_marked hown, hvalues, hmarks, List.foldl_cons, List.foldl_nil, visitMark,
        if_pos hown]
      cases hlast : (markedValues (plan.featuresOf decl) own decl.value).getLast? with
      | none => exact .inl ⟨rfl, rfl⟩
      | some last =>
        refine .inr ⟨last, rfl, ?_⟩
        rw [List.foldl_map]

/-- Marked values are put in front of a declaration, and become its own value where its property
bears the mark. -/
theorem visits_value (hvendors : plan.vendors.Nodup) : Visits plan.visitValue
    (Node.weaveTurn (fun d e => d.pair == e.pair) plan.markValue) := by
  intro d s c q m vendor decl hd hm hparent hlive hlabel
  have hdecl : d.declaration? c = some decl := declaration?_eq_some_iff.mpr ⟨m, hm, hlabel⟩
  have hforms : ∀ form ∈ (plan.markValue vendor decl).1, form.position = m.position := by
    intro form hform
    obtain ⟨value, -, rfl⟩ := mem_allMarkedValues_of_mem_markValue hform
    rw [DraftNode.position, hlabel]
  obtain ⟨hfronts, hcount⟩ :=
    fronts_foldl (offers_unlessPair c q) hd hm hparent (fun _ => rfl) hforms s
  rw [visitValue, Node.weaveTurn]
  dsimp only
  rw [hdecl, List.map_append]
  dsimp only
  rcases plan.foldl_visitMark_cases hvendors vendor decl (c := c) (d, s) with
    ⟨hself, hafter⟩ | ⟨last, hself, hafter⟩
  · have hturns := hfronts.turns hd
    rw [trees_of_live hm hlive (nodeAt?_leaf hm hlabel)] at hturns
    rw [hafter, hself]
    exact ⟨hturns, hcount⟩
  · have hturns := hfronts.turns_modify hd hm hparent
      (fun m => { m with label := m.label.withValue last })
      (linked_edited hfronts.linked (.setValue c last))
    have hchanged : (((plan.markValue vendor decl).1.foldl
        (fun now form => insertInFront c now form.property form.value) (d, s)).1.setValue c
          last).find? c =
        some { m with label := .leaf (.declaration { decl with value := last }) } := by
      rw [setValue, find?_modify, if_pos rfl, hfronts.find?_eq hd hm hparent, Option.map_some,
        hlabel]
      rfl
    rw [← setValue, trees_of_live hchanged hlive (nodeAt?_leaf hchanged rfl)] at hturns
    rw [hafter, hself]
    exact ⟨hturns, hcount⟩

/-- A useless declaration is removed. -/
theorem visits_useless : Visits plan.visitUselessDeclaration
    (Node.filterTurn plan.removesDeclaration) := by
  intro d s c q m vendor decl hd hm hparent hlive hlabel
  have hdecl : d.declaration? c = some decl := declaration?_eq_some_iff.mpr ⟨m, hm, hlabel⟩
  have hrefl := Fronts.refl hd hm hparent
  rw [visitUselessDeclaration, Node.filterTurn]
  dsimp only
  rw [hdecl]
  dsimp only
  cases huseless : plan.removesDeclaration decl with
  | true =>
    have hturns := hrefl.turns_modify hd hm hparent
      (fun m => if m.label.declaration?.isSome then { m with removed := true } else m)
      (linked_edited hd (.removeDeclaration c))
    have hgone : (d.removeDeclaration c).find? c = some { m with removed := true } := by
      rw [removeDeclaration, find?_modify, if_pos rfl, hm, Option.map_some, hlabel]
      rfl
    have htrees : (d.removeDeclaration c).trees [c] = [] := trees_of_removed hgone rfl
    rw [← removeDeclaration, htrees] at hturns
    exact ⟨hturns, rfl⟩
  | false =>
    have hturns := hrefl.turns hd
    rw [trees_of_live hm hlive (nodeAt?_leaf hm hlabel)] at hturns
    exact ⟨hturns, rfl⟩

/-- A visit that only asks whether marking the value of a declaration ends the program. -/
theorem visits_crash : Visits (fun place now =>
      (now.1, now.2 || (now.1.declaration? place.handle).any (plan.crashes place.vendor)))
    (Node.anyTurn plan.crashes) := by
  intro d crashed c q m vendor decl hd hm hparent hlive hlabel
  have hdecl : d.declaration? c = some decl := declaration?_eq_some_iff.mpr ⟨m, hm, hlabel⟩
  have hturns := (Fronts.refl hd hm hparent).turns hd
  rw [trees_of_live hm hlive (nodeAt?_leaf hm hlabel)] at hturns
  rw [Node.anyTurn]
  dsimp only
  rw [hdecl]
  exact ⟨hturns, rfl⟩

end Visit

/-! ## Visits to animations -/

/-- What is taken along while animations are copied: the ones that the draft has, and what has
been counted. -/
def KnowsAnimations (d : Draft) (s : Statistics) (along : List Animation × Statistics) : Prop :=
  d.Fits ∧ (∀ animation, animation ∈ d.toNode.allAnimations ↔ animation ∈ along.1) ∧ s = along.2

section Copy

variable {name mark : String} {known : List Animation} (hd : d.Linked [0]) (hm : d.find? c = some m)
  (hparent : m.parent = some q) (hlabel : m.label = .block (.keyframes name none))
include hd hm hparent hlabel

/-- A copy for which there is no animation yet is put in front of the animation, and is known
then. -/
theorem copyInFront_cases (halong : KnowsAnimations d s (known, s)) (mark : String) :
    (⟨name, some mark⟩ ∈ known ∧ copyInFront c (d, s) mark = (d, s)) ∨
    (⟨name, some mark⟩ ∉ known ∧ ∃ e, copyInFront c (d, s) mark = (e, s.merge (.ofCopied 1)) ∧
      d.Fronts q c [.block (.keyframes name (some mark)) (d.trees m.children)] e ∧
      KnowsAnimations e (s.merge (.ofCopied 1))
        (known ++ [⟨name, some mark⟩], s.merge (.ofCopied 1))) := by
  obtain ⟨hfits, hknown, -⟩ := halong
  have hrefused := hfits.copyAnimation_eq_none_iff hd hm hlabel mark
  rw [hknown] at hrefused
  cases hnew : d.copyAnimation c mark with
  | none => exact .inl ⟨hrefused.mp hnew, by rw [copyInFront, hnew]⟩
  | some made =>
    obtain ⟨new, e⟩ := made
    have hmissing : ⟨name, some mark⟩ ∉ known := fun hmem => by
      cases hnew.symm.trans (hrefused.mpr hmem)
    obtain ⟨hcopied, m', hm', -, hlive⟩ := hd.copied_of_copyAnimation hm hlabel hparent hnew
    have hfronts := (hd.inserts_of_copyAnimation hnew).fronts hd hm hparent
    rw [trees_of_live hm' hlive hcopied] at hfronts
    refine .inr ⟨hmissing, e, by rw [copyInFront, hnew]; rfl, hfronts,
      hfits.copyAnimation hd hnew, fun animation => ?_, rfl⟩
    rw [← List.count_pos_iff, hfits.count_allAnimations_copy hd hm hlabel hnew, ← List.count_append,
      List.count_pos_iff, List.mem_append, List.mem_append, hknown]

/-- Copies for one mark after the other come to stand in front of an animation, but for those
that are known. -/
theorem fronts_foldl_copy {marks : List String} (hmarks : marks.Nodup)
    (halong : KnowsAnimations d s (known, s)) :
    let missing := Node.missingMarks marks known name
    let now := marks.foldl (copyInFront c) (d, s)
    d.Fronts q c (missing.map fun mark =>
        .block (.keyframes name (some mark)) (d.trees m.children)) now.1 ∧
      now.2 = s.merge (.ofCopied missing.length) ∧
      KnowsAnimations now.1 now.2 (known ++ missing.map fun mark => ⟨name, some mark⟩, now.2) := by
  induction marks generalizing d s known with
  | nil =>
    refine ⟨.refl hd hm hparent, rfl, ?_⟩
    rw [Node.missingMarks, List.filter_nil, List.map_nil, List.append_nil]
    exact halong
  | cons mark rest ih =>
    obtain ⟨hnot, hrest⟩ := List.nodup_cons.mp hmarks
    rw [List.foldl_cons, Node.missingMarks, List.filter_cons]
    rcases copyInFront_cases hd hm hparent hlabel halong mark with
      ⟨hmem, hstep⟩ | ⟨hmissing, e, hstep, hfronts, hafter⟩
    · rw [hstep, if_neg (by simpa using hmem)]
      exact ih hd hm hrest halong
    · have hsame : Node.missingMarks rest (known ++ [⟨name, some mark⟩]) name =
          Node.missingMarks rest known name := by
        refine List.filter_congr fun other hother => ?_
        have hne : other ≠ mark := fun heq => hnot (heq ▸ hother)
        simp [hne]
      have hframes : e.trees m.children = d.trees m.children :=
        hd.trees_congr_of_children hm (List.Subset.refl _) fun k hk hlt =>
          hfronts.others k hlt (Nat.ne_of_gt (Nat.lt_trans (hd.parent_lt hm hparent) hk))
      obtain ⟨hlast, hcount, hend⟩ := ih hfronts.linked (hfronts.find?_eq hd hm hparent) hrest hafter
      rw [hsame, hframes] at hlast
      rw [hsame] at hcount hend
      rw [hstep, if_pos (by simpa using hmissing)]
      refine ⟨hfronts.trans hd hm hparent hlast, ?_, ?_⟩
      · rw [hcount, Statistics.merge_ofCopied_add, List.length_cons, Nat.add_comm]
      · rw [List.map_cons]
        rw [List.append_assoc] at hend
        exact hend

end Copy

/-- An animation without a mark is copied for every mark. -/
theorem visits_copy {marks : List String} (hmarks : marks.Nodup) :
    VisitsAnimations KnowsAnimations (visitAnimation marks) (Node.copyTurn marks) := by
  rintro d s ⟨known, t⟩ c q m name vendor hd hm hparent hlive hlabel ⟨hfits, hknown, rfl⟩
  have htree := trees_of_live hm hlive (hd.nodeAt?_eq_block hm hlabel)
  have halong : KnowsAnimations d s (known, s) := ⟨hfits, hknown, rfl⟩
  rw [visitAnimation, Node.copyTurn]
  dsimp only
  cases vendor with
  | some mark =>
    have hturns := (Fronts.refl hd hm hparent).turns hd
    rw [htree] at hturns
    exact ⟨hturns, halong⟩
  | none =>
    obtain ⟨hfronts, hcount, hend⟩ := fronts_foldl_copy hd hm hparent hlabel hmarks halong
    have hturns := hfronts.turns hd
    rw [htree] at hturns
    rw [Node.copyIn_unmarked]
    refine ⟨hturns, ?_⟩
    rw [hcount] at hend ⊢
    simpa using hend

/-- An animation whose mark is useless is removed. -/
theorem visits_uselessAnimation (plan : Plan) :
    VisitsAnimations (fun _ s along => s = along) plan.visitUselessAnimation
      (Node.dropTurn plan.removesKeyframes) := by
  rintro d s - c q m name vendor hd hm hparent hlive hlabel rfl
  have hrefl := Fronts.refl hd hm hparent
  rw [visitUselessAnimation, Node.dropTurn]
  dsimp only
  cases huseless : vendor.any plan.removesKeyframes with
  | true =>
    have hturns := hrefl.turns_modify hd hm hparent
      (fun m => if m.label.animation?.isSome then { m with removed := true } else m)
      (linked_edited hd (.removeAnimation c))
    have hgone : (d.removeAnimation c).find? c = some { m with removed := true } := by
      rw [removeAnimation, find?_modify, if_pos rfl, hm, Option.map_some, hlabel]
      rfl
    rw [← removeAnimation, trees_of_removed hgone rfl] at hturns
    exact ⟨hturns, rfl⟩
  | false =>
    have hturns := hrefl.turns hd
    rw [trees_of_live hm hlive (hd.nodeAt?_eq_block hm hlabel)] at hturns
    exact ⟨hturns, rfl⟩

end Plan
end VendorPrefixing
