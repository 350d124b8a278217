import Mathlib.Tactic.Tauto
import VendorPrefixing.Sheet.Contents

/-!
# What weaving declarations into a block does

Weaving goes through the contents of a block once.  It keeps every node in its
place, apart from what the forms of a declaration make of it, and puts new
declarations directly in front of the ones they belong to.

Main results:

- Theorem `Node.weaveFrom_eq_self`: a block that has everything already is left
  as it is.
- Theorem `Node.any_declarations_weaveFrom`: afterwards the block has every form
  of every declaration it had before.
- Theorem `Node.mem_declarations_weaveFrom`: every declaration of the result comes
  from one that was there.
- Theorem `Node.map_overwrite_eq_of_count`: a weave that adds no declaration only
  overwrites.
-/

namespace VendorPrefixing
namespace Node

variable {same : Declaration → Declaration → Bool}
variable {forms : Declaration → List Declaration × Declaration}

/-! ## The declarations of a list -/

@[simp]
theorem declarations_nil : declarations [] = [] :=
  rfl

@[simp]
theorem declarations_cons_leaf (d : Declaration) (ns : List Node) :
    declarations (leaf (.declaration d) :: ns) = d :: declarations ns :=
  rfl

theorem declarations_cons_of_none {n : Node} (h : n.declaration? = none) (ns : List Node) :
    declarations (n :: ns) = declarations ns :=
  List.filterMap_cons_none h

@[simp]
theorem declarations_append (ns ms : List Node) :
    declarations (ns ++ ms) = declarations ns ++ declarations ms :=
  List.filterMap_append

@[simp]
theorem declarations_map_leaf (ds : List Declaration) :
    declarations (ds.map (leaf ∘ .declaration)) = ds := by
  induction ds with
  | nil => rfl
  | cons d ds ih => rw [List.map_cons, Function.comp, declarations_cons_leaf, ih]

/-- Only the leaf of a declaration is that declaration. -/
theorem declaration?_eq_some {n : Node} {d : Declaration} :
    n.declaration? = some d ↔ n = leaf (.declaration d) := by
  constructor
  · intro h
    cases n with
    | leaf l =>
      cases l with
      | declaration e =>
        cases h
        rfl
      | comment text => cases h
      | statement kind text => cases h
    | block head children => cases h
  · rintro rfl
    rfl

theorem mem_declarations {ns : List Node} {d : Declaration} :
    d ∈ declarations ns ↔ leaf (.declaration d) ∈ ns := by
  simp only [declarations, List.mem_filterMap, declaration?_eq_some]
  exact ⟨fun ⟨_, h, e⟩ => e ▸ h, fun h => ⟨_, h, rfl⟩⟩

/-! ## Missing declarations -/

/-- Nothing is missing where everything is known. -/
theorem missing_eq_nil {known new : List Declaration}
    (h : ∀ e ∈ new, known.any (same e) = true) : missing same known new = [] := by
  induction new with
  | nil => rfl
  | cons d rest ih =>
    rw [missing, if_pos (h d List.mem_cons_self)]
    exact ih fun e he => h e (List.mem_cons_of_mem d he)

/-- With the missing declarations everything that was offered is known. -/
theorem any_missing (known : List Declaration) {new : List Declaration} {e : Declaration}
    (hsame : ∀ d, same d d = true) (he : e ∈ new) :
    (known ++ missing same known new).any (same e) = true := by
  induction new generalizing known with
  | nil => exact absurd he List.not_mem_nil
  | cons d rest ih =>
    rw [missing]
    split
    · rename_i hknown
      rcases List.mem_cons.mp he with rfl | he
      · rw [List.any_append, hknown, Bool.true_or]
      · exact ih known he
    · rcases List.mem_cons.mp he with rfl | he
      · simp [hsame]
      · have hrest := ih (d :: known) he
        simp only [List.any_append, List.any_cons, Bool.or_eq_true] at hrest ⊢
        tauto

/-! ## Step by step -/

/-- A node as it is after the forms of its declaration have been woven in. -/
def overwrite (forms : Declaration → List Declaration × Declaration) (n : Node) : Node :=
  match n.declaration? with
  | some d => leaf (.declaration (forms d).2)
  | none => n

@[simp]
theorem overwrite_leaf (d : Declaration) :
    overwrite forms (leaf (.declaration d)) = leaf (.declaration (forms d).2) :=
  rfl

theorem overwrite_of_none {n : Node} (h : n.declaration? = none) : overwrite forms n = n := by
  rw [overwrite, h]

@[simp]
theorem weaveFrom_nil (before : List Declaration) : weaveFrom same forms before [] = [] :=
  rfl

/-- What is no declaration is passed over. -/
theorem weaveFrom_cons_of_none {n : Node} (h : n.declaration? = none)
    (before : List Declaration) (rest : List Node) :
    weaveFrom same forms before (n :: rest) = n :: weaveFrom same forms before rest := by
  rw [weaveFrom, h]

/-- What is put in front of the first declaration of a list. -/
abbrev news (same : Declaration → Declaration → Bool)
    (forms : Declaration → List Declaration × Declaration) (before : List Declaration)
    (d : Declaration) (rest : List Node) : List Declaration :=
  missing same (before ++ d :: declarations rest) (forms d).1

/-- A declaration follows what is put in front of it. -/
theorem weaveFrom_cons_leaf (before : List Declaration) (d : Declaration) (rest : List Node) :
    weaveFrom same forms before (leaf (.declaration d) :: rest) =
      (news same forms before d rest).map (leaf ∘ .declaration) ++
        leaf (.declaration (forms d).2) ::
          weaveFrom same forms (before ++ news same forms before d rest ++ [(forms d).2]) rest :=
  rfl

theorem mem_news {before : List Declaration} {d e : Declaration} {rest : List Node}
    (h : e ∈ news same forms before d rest) : e ∈ (forms d).1 :=
  (sublist_missing _ _ _).subset h

/-! ## What is left alone -/

/-- A block that has every form of its declarations is left as it is. -/
theorem weaveFrom_eq_self {before : List Declaration} {ns : List Node}
    (hkeep : ∀ d ∈ declarations ns, (forms d).2 = d)
    (hknown : ∀ d ∈ declarations ns, ∀ e ∈ (forms d).1,
      (before ++ declarations ns).any (same e) = true) :
    weaveFrom same forms before ns = ns := by
  induction ns generalizing before with
  | nil => rfl
  | cons n rest ih =>
    cases hn : n.declaration? with
    | none =>
      rw [declarations_cons_of_none hn] at hkeep hknown
      rw [weaveFrom_cons_of_none hn, ih hkeep hknown]
    | some d =>
      obtain rfl := declaration?_eq_some.mp hn
      rw [declarations_cons_leaf] at hkeep hknown
      have hnews : news same forms before d rest = [] :=
        missing_eq_nil (hknown d List.mem_cons_self)
      have hrest : weaveFrom same forms (before ++ [d]) rest = rest := by
        refine ih (fun e he => hkeep e (List.mem_cons_of_mem d he)) fun x hx e he => ?_
        rw [List.append_assoc, List.singleton_append]
        exact hknown x (List.mem_cons_of_mem d hx) e he
      rw [weaveFrom_cons_leaf, hnews, hkeep d List.mem_cons_self, List.map_nil, List.nil_append,
        List.append_nil, hrest]

/-! ## What the result has -/

/-- A declaration that something looks for is still found where overwriting keeps
what it looks for. -/
theorem any_declarations_weaveFrom_of_mem {before : List Declaration} {ns : List Node}
    {p : Declaration → Bool} (hkeep : ∀ d, p d = true → p (forms d).2 = true)
    (h : (declarations ns).any p = true) :
    (declarations (weaveFrom same forms before ns)).any p = true := by
  induction ns generalizing before with
  | nil => exact absurd h (by simp)
  | cons n rest ih =>
    cases hn : n.declaration? with
    | none =>
      rw [declarations_cons_of_none hn] at h
      rw [weaveFrom_cons_of_none hn, declarations_cons_of_none hn]
      exact ih h
    | some d =>
      obtain rfl := declaration?_eq_some.mp hn
      rw [declarations_cons_leaf, List.any_cons, Bool.or_eq_true] at h
      rw [weaveFrom_cons_leaf, declarations_append, declarations_cons_leaf, List.any_append,
        List.any_cons]
      rcases h with h | h
      · rw [hkeep d h, Bool.true_or, Bool.or_true]
      · rw [ih h, Bool.or_true, Bool.or_true]

/-- Afterwards a block has what has become of every declaration it had before. -/
theorem snd_mem_declarations_weaveFrom {before : List Declaration} {ns : List Node}
    {d : Declaration} (h : d ∈ declarations ns) :
    (forms d).2 ∈ declarations (weaveFrom same forms before ns) := by
  induction ns generalizing before with
  | nil => exact absurd h List.not_mem_nil
  | cons n rest ih =>
    cases hn : n.declaration? with
    | none =>
      rw [declarations_cons_of_none hn] at h
      rw [weaveFrom_cons_of_none hn, declarations_cons_of_none hn]
      exact ih h
    | some e =>
      obtain rfl := declaration?_eq_some.mp hn
      rw [weaveFrom_cons_leaf, declarations_append, declarations_cons_leaf, List.mem_append,
        List.mem_cons]
      rcases List.mem_cons.mp h with rfl | h
      · exact .inr (.inl rfl)
      · exact .inr (.inr (ih h))

/-- Afterwards a block has every form of every declaration it had before, as far
as overwriting keeps what the form looks for. -/
theorem any_declarations_weaveFrom (before : List Declaration) {ns : List Node}
    {d e : Declaration} (hsame : ∀ d, same d d = true)
    (hkeep : ∀ x, same e x = true → same e (forms x).2 = true)
    (hd : d ∈ declarations ns) (he : e ∈ (forms d).1) :
    (before ++ declarations (weaveFrom same forms before ns)).any (same e) = true := by
  induction ns generalizing before with
  | nil => exact absurd hd List.not_mem_nil
  | cons n rest ih =>
    cases hn : n.declaration? with
    | none =>
      rw [declarations_cons_of_none hn] at hd
      rw [weaveFrom_cons_of_none hn, declarations_cons_of_none hn]
      exact ih before hd
    | some x =>
      obtain rfl := declaration?_eq_some.mp hn
      rw [weaveFrom_cons_leaf]
      rcases List.mem_cons.mp hd with rfl | hd
      · -- Whatever made the form known is still in the block at the end.
        have hknown := any_missing (before ++ d :: declarations rest) hsame he
        rw [List.any_append, List.any_append, List.any_cons, Bool.or_eq_true, Bool.or_eq_true,
          Bool.or_eq_true] at hknown
        rw [List.any_append, declarations_append, List.any_append, declarations_map_leaf,
          declarations_cons_leaf, List.any_cons]
        rcases hknown with (hbefore | hself | hrest) | hnew
        · rw [hbefore, Bool.true_or]
        · rw [hkeep d hself, Bool.true_or, Bool.or_true, Bool.or_true]
        · rw [any_declarations_weaveFrom_of_mem hkeep hrest, Bool.or_true, Bool.or_true,
            Bool.or_true]
        · rw [hnew, Bool.true_or, Bool.or_true]
      · have hrest := ih (before ++ news same forms before x rest ++ [(forms x).2]) hd
        simp only [List.any_append, List.any_cons, List.any_nil, declarations_append,
          declarations_map_leaf, declarations_cons_leaf, Bool.or_eq_true, Bool.or_false] at hrest ⊢
        tauto

/-- Every declaration of the result is a form of one that was there, or what has
become of it. -/
theorem mem_declarations_weaveFrom {before : List Declaration} {ns : List Node}
    {e : Declaration} (he : e ∈ declarations (weaveFrom same forms before ns)) :
    ∃ d ∈ declarations ns, e ∈ (forms d).1 ∨ e = (forms d).2 := by
  induction ns generalizing before with
  | nil => exact absurd he List.not_mem_nil
  | cons n rest ih =>
    cases hn : n.declaration? with
    | none =>
      rw [weaveFrom_cons_of_none hn, declarations_cons_of_none hn] at he
      rw [declarations_cons_of_none hn]
      exact ih he
    | some d =>
      obtain rfl := declaration?_eq_some.mp hn
      rw [weaveFrom_cons_leaf, declarations_append, declarations_map_leaf, List.mem_append,
        declarations_cons_leaf, List.mem_cons] at he
      rw [declarations_cons_leaf]
      rcases he with he | rfl | he
      · exact ⟨d, List.mem_cons_self, .inl (mem_news he)⟩
      · exact ⟨d, List.mem_cons_self, .inr rfl⟩
      · obtain ⟨x, hx, hex⟩ := ih he
        exact ⟨x, List.mem_cons_of_mem d hx, hex⟩

/-- Of a list from which everything woven in is taken out again, only what has
become of the nodes is left. -/
theorem filter_weaveFrom {before : List Declaration} {ns : List Node} {keep : Node → Bool}
    (h : ∀ d ∈ declarations ns, ∀ e ∈ (forms d).1, keep (leaf (.declaration e)) = false) :
    (weaveFrom same forms before ns).filter keep = (ns.map (overwrite forms)).filter keep := by
  induction ns generalizing before with
  | nil => rfl
  | cons n rest ih =>
    cases hn : n.declaration? with
    | none =>
      rw [declarations_cons_of_none hn] at h
      rw [weaveFrom_cons_of_none hn, List.map_cons, overwrite_of_none hn, List.filter_cons,
        List.filter_cons, ih h]
    | some d =>
      obtain rfl := declaration?_eq_some.mp hn
      rw [declarations_cons_leaf] at h
      have hnews : ((news same forms before d rest).map (leaf ∘ .declaration)).filter keep = [] := by
        rw [List.filter_eq_nil_iff]
        intro m hm
        obtain ⟨e, he, rfl⟩ := List.mem_map.mp hm
        rw [Function.comp, h d List.mem_cons_self e (mem_news he)]
        exact Bool.false_ne_true
      have hrest := fun before => @ih before fun e he =>
        h e (List.mem_cons_of_mem d he)
      rw [weaveFrom_cons_leaf, List.filter_append, hnews, List.nil_append, List.map_cons,
        overwrite_leaf, List.filter_cons, List.filter_cons, hrest]

/-! ## Counting -/

@[simp]
theorem declarationCountAll_append (ns ms : List Node) :
    declarationCountAll (ns ++ ms) = declarationCountAll ns + declarationCountAll ms := by
  induction ns with
  | nil => simp [declarationCountAll]
  | cons n ns ih => rw [List.cons_append, declarationCountAll, declarationCountAll, ih, Nat.add_assoc]

@[simp]
theorem declarationCountAll_map_leaf (ds : List Declaration) :
    declarationCountAll (ds.map (leaf ∘ .declaration)) = ds.length := by
  induction ds with
  | nil => rfl
  | cons d ds ih =>
    rw [List.map_cons, declarationCountAll, ih, List.length_cons]
    simp [declarationCount, Leaf.declarationCount, Nat.add_comm]

@[simp]
theorem declarationCount_leaf_declaration (d : Declaration) :
    declarationCount (leaf (.declaration d)) = 1 :=
  rfl

/-- Weaving takes no declaration away. -/
theorem declarationCountAll_le_weaveFrom (before : List Declaration) (ns : List Node) :
    declarationCountAll ns ≤ declarationCountAll (weaveFrom same forms before ns) := by
  induction ns generalizing before with
  | nil => exact Nat.le_refl _
  | cons n rest ih =>
    cases hn : n.declaration? with
    | none =>
      rw [weaveFrom_cons_of_none hn, declarationCountAll, declarationCountAll]
      exact Nat.add_le_add_left (ih before) _
    | some d =>
      obtain rfl := declaration?_eq_some.mp hn
      rw [weaveFrom_cons_leaf, declarationCountAll_append, declarationCountAll_map_leaf,
        declarationCountAll, declarationCountAll, declarationCount_leaf_declaration,
        declarationCount_leaf_declaration]
      have hrest := ih (before ++ news same forms before d rest ++ [(forms d).2])
      omega

/-- A weave that adds no declaration only overwrites. -/
theorem map_overwrite_eq_of_count {before : List Declaration} {ns : List Node}
    (h : declarationCountAll (weaveFrom same forms before ns) = declarationCountAll ns) :
    weaveFrom same forms before ns = ns.map (overwrite forms) := by
  induction ns generalizing before with
  | nil => rfl
  | cons n rest ih =>
    cases hn : n.declaration? with
    | none =>
      rw [weaveFrom_cons_of_none hn, declarationCountAll, declarationCountAll] at h
      rw [weaveFrom_cons_of_none hn, List.map_cons, overwrite_of_none hn,
        ih (Nat.add_left_cancel h)]
    | some d =>
      obtain rfl := declaration?_eq_some.mp hn
      rw [weaveFrom_cons_leaf, declarationCountAll_append, declarationCountAll_map_leaf,
        declarationCountAll, declarationCountAll, declarationCount_leaf_declaration,
        declarationCount_leaf_declaration] at h
      have hle := @declarationCountAll_le_weaveFrom same forms
        (before ++ news same forms before d rest ++ [(forms d).2]) rest
      have hnews : news same forms before d rest = [] := List.eq_nil_of_length_eq_zero (by omega)
      rw [weaveFrom_cons_leaf, ih (by omega), hnews, List.map_nil, List.nil_append, List.map_cons,
        overwrite_leaf]

end Node
end VendorPrefixing
