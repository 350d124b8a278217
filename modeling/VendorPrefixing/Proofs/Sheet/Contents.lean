import VendorPrefixing.Proofs.Sheet.Weave

/-!
# Passes over the contents of blocks

Facts about `Node.mapContents` for changes that only concern the declarations of
a block.  Such a change does not look at what stands deeper in the tree, so two
passes one after the other are one pass, and a pass can change places with
anything that leaves declarations alone.

Main results:

- Theorem `Node.mapContents_mapContents`: two passes are one pass.
- Theorem `Node.mapContents_congr`: a pass is determined by what it does to the
  blocks whose declarations the tree can hold.
- Theorem `Node.placed_mapContents_filter`: a pass that filters declarations
  filters the declarations of the tree.
- Theorem `Node.mapContents_eq_of_count`: a pass that adds no declaration does to
  every block what it does where it adds none.
- Theorem `Node.mapContents_overwrite_eq_self_iff`: what a pass that overwrites
  declarations leaves alone.
-/

namespace VendorPrefixing
namespace Node

/-! ## Changes of declarations alone -/

/-- A change of single nodes that leaves declarations as they are and makes none
of anything else. -/
structure KeepsDeclarations (φ : Node → List Node) : Prop where
  declaration : ∀ d, φ (leaf (.declaration d)) = [leaf (.declaration d)]
  other : ∀ n, n.declaration? = none → declarations (φ n) = []

/-- A change of the contents of a block that only concerns its declarations. -/
structure OnlyDeclarations (change : List Node → List Node) : Prop where
  flatMap : ∀ {φ}, KeepsDeclarations φ → ∀ ns, (change ns).flatMap φ = change (ns.flatMap φ)
  others : ∀ ns, (change ns).filter (·.declaration?.isNone) =
    ns.filter (·.declaration?.isNone)

variable {same : Declaration → Declaration → Bool}
variable {forms : Declaration → List Declaration × Declaration}

/-- What leaves declarations alone leaves the declarations of a list alone. -/
theorem KeepsDeclarations.declarations_flatMap {φ : Node → List Node}
    (hφ : KeepsDeclarations φ) (ns : List Node) :
    declarations (ns.flatMap φ) = declarations ns := by
  induction ns with
  | nil => rfl
  | cons n rest ih =>
    rw [List.flatMap_cons, declarations_append, ih]
    cases hn : n.declaration? with
    | none => rw [hφ.other n hn, List.nil_append, declarations_cons_of_none hn]
    | some d =>
      obtain rfl := declaration?_eq_some.mp hn
      rw [hφ.declaration, declarations_cons_leaf, declarations_cons_leaf, declarations_nil,
        List.singleton_append]

/-- Declarations in a row stay as they are. -/
theorem KeepsDeclarations.flatMap_map_leaf {φ : Node → List Node} (hφ : KeepsDeclarations φ)
    (ds : List Declaration) :
    (ds.map (leaf ∘ .declaration)).flatMap φ = ds.map (leaf ∘ .declaration) := by
  induction ds with
  | nil => rfl
  | cons d ds ih =>
    rw [List.map_cons, List.flatMap_cons, Function.comp, hφ.declaration, ih]
    rfl

/-- Weaving passes over a stretch without declarations. -/
theorem weaveFrom_append_of_declarations_nil {front : List Node} (h : declarations front = [])
    (before : List Declaration) (ns : List Node) :
    weaveFrom same forms before (front ++ ns) = front ++ weaveFrom same forms before ns := by
  induction front with
  | nil => rfl
  | cons n front ih =>
    cases hn : n.declaration? with
    | none =>
      rw [declarations_cons_of_none hn] at h
      rw [List.cons_append, weaveFrom_cons_of_none hn, ih h, List.cons_append]
    | some d =>
      obtain rfl := declaration?_eq_some.mp hn
      rw [declarations_cons_leaf] at h
      exact absurd h (List.cons_ne_nil _ _)

theorem weaveFrom_flatMap {φ : Node → List Node} (hφ : KeepsDeclarations φ)
    (before : List Declaration) (ns : List Node) :
    (weaveFrom same forms before ns).flatMap φ = weaveFrom same forms before (ns.flatMap φ) := by
  induction ns generalizing before with
  | nil => rfl
  | cons n rest ih =>
    cases hn : n.declaration? with
    | none =>
      rw [weaveFrom_cons_of_none hn, List.flatMap_cons, List.flatMap_cons,
        weaveFrom_append_of_declarations_nil (hφ.other n hn), ih]
    | some d =>
      obtain rfl := declaration?_eq_some.mp hn
      have hnews : news same forms before d (rest.flatMap φ) = news same forms before d rest := by
        rw [news, news, hφ.declarations_flatMap]
      rw [weaveFrom_cons_leaf, List.flatMap_append, List.flatMap_cons, hφ.flatMap_map_leaf,
        hφ.declaration, ih, List.flatMap_cons, hφ.declaration, List.singleton_append,
        List.singleton_append, weaveFrom_cons_leaf, hnews]

theorem filter_isNone_map_leaf (ds : List Declaration) :
    (ds.map (leaf ∘ .declaration)).filter (·.declaration?.isNone) = [] := by
  rw [List.filter_eq_nil_iff]
  intro n hn
  obtain ⟨d, _, rfl⟩ := List.mem_map.mp hn
  exact Bool.false_ne_true

theorem filter_isNone_weaveFrom (before : List Declaration) (ns : List Node) :
    (weaveFrom same forms before ns).filter (·.declaration?.isNone) =
      ns.filter (·.declaration?.isNone) := by
  induction ns generalizing before with
  | nil => rfl
  | cons n rest ih =>
    cases hn : n.declaration? with
    | none => rw [weaveFrom_cons_of_none hn, List.filter_cons, List.filter_cons, ih]
    | some d =>
      obtain rfl := declaration?_eq_some.mp hn
      rw [weaveFrom_cons_leaf, List.filter_append, filter_isNone_map_leaf, List.nil_append,
        List.filter_cons, List.filter_cons, ih]
      rfl

/-- Weaving only concerns declarations. -/
theorem onlyDeclarations_weave : OnlyDeclarations (weave same forms) where
  flatMap hφ ns := weaveFrom_flatMap hφ [] ns
  others ns := filter_isNone_weaveFrom [] ns

/-- So does a filter that keeps everything else. -/
theorem onlyDeclarations_filter {keep : Node → Bool}
    (h : ∀ n, n.declaration? = none → keep n = true) :
    OnlyDeclarations (·.filter keep) where
  flatMap {φ} hφ ns := by
    induction ns with
    | nil => rfl
    | cons n rest ih =>
      rw [List.flatMap_cons, List.filter_append, ← ih]
      cases hn : n.declaration? with
      | none =>
        have hfront : (φ n).filter keep = φ n := by
          rw [List.filter_eq_self]
          intro m hm
          apply h
          cases hd : m.declaration? with
          | none => rfl
          | some d =>
            have hmem : d ∈ declarations (φ n) :=
              mem_declarations.mpr (declaration?_eq_some.mp hd ▸ hm)
            rw [hφ.other n hn] at hmem
            exact absurd hmem List.not_mem_nil
        rw [List.filter_cons_of_pos (h n hn), List.flatMap_cons, hfront]
      | some d =>
        obtain rfl := declaration?_eq_some.mp hn
        rw [hφ.declaration]
        by_cases hkeep : keep (leaf (.declaration d)) = true
        · rw [List.filter_cons_of_pos hkeep, List.filter_cons_of_pos hkeep, List.flatMap_cons,
            hφ.declaration, List.filter_nil]
        · rw [List.filter_cons_of_neg hkeep, List.filter_cons_of_neg hkeep, List.filter_nil,
            List.nil_append]
  others ns := by
    rw [List.filter_filter]
    refine List.filter_congr fun n _ => ?_
    cases hn : n.declaration? with
    | none => simp [h n hn]
    | some d => simp

/-- Two changes one after the other only concern declarations if both do. -/
theorem OnlyDeclarations.comp {f g : List Node → List Node} (hg : OnlyDeclarations g)
    (hf : OnlyDeclarations f) : OnlyDeclarations (g ∘ f) where
  flatMap hφ ns := by rw [Function.comp, Function.comp, hg.flatMap hφ, hf.flatMap hφ]
  others ns := by rw [Function.comp, hg.others, hf.others]

/-- What nothing can be read off declarations for can be read off the other nodes
alone. -/
theorem flatMap_filter_isNone {α : Type} {φ : Node → List α}
    (hφ : ∀ d, φ (leaf (.declaration d)) = []) (ns : List Node) :
    (ns.filter (·.declaration?.isNone)).flatMap φ = ns.flatMap φ := by
  induction ns with
  | nil => rfl
  | cons n rest ih =>
    cases hn : n.declaration? with
    | none => rw [List.filter_cons_of_pos (by rw [hn]; rfl), List.flatMap_cons, List.flatMap_cons, ih]
    | some d =>
      obtain rfl := declaration?_eq_some.mp hn
      rw [List.filter_cons_of_neg (by simp [hn]), List.flatMap_cons, hφ, List.nil_append, ih]

/-- What is read off the other nodes stays the same where only declarations change. -/
theorem OnlyDeclarations.flatMap_eq {α : Type} {φ : Node → List α} {change : List Node → List Node}
    (h : OnlyDeclarations change) (hφ : ∀ d, φ (leaf (.declaration d)) = []) (ns : List Node) :
    (change ns).flatMap φ = ns.flatMap φ := by
  rw [← flatMap_filter_isNone hφ, h.others, flatMap_filter_isNone hφ]

/-! ## One pass after the other -/

variable {f g : Option String → List Node → List Node}

theorem mapContentsAll_eq_flatMap (vendor : Option String) (ns : List Node) :
    mapContentsAll f vendor ns = ns.flatMap fun n => [mapContents f vendor n] := by
  induction ns with
  | nil => rfl
  | cons n rest ih => rw [mapContentsAll, ih, List.flatMap_cons, List.singleton_append]

theorem mapContentsAll_append (vendor : Option String) (ns ms : List Node) :
    mapContentsAll f vendor (ns ++ ms) =
      mapContentsAll f vendor ns ++ mapContentsAll f vendor ms := by
  rw [mapContentsAll_eq_flatMap, mapContentsAll_eq_flatMap, mapContentsAll_eq_flatMap,
    List.flatMap_append]

/-- A pass leaves the declarations among the nodes of a list alone. -/
theorem keepsDeclarations_mapContents (vendor : Option String) :
    KeepsDeclarations fun n => [mapContents f vendor n] where
  declaration _ := rfl
  other n hn := by
    rw [declarations_cons_of_none ((declaration?_mapContents f vendor n).trans hn),
      declarations_nil]

theorem declarations_mapContentsAll (vendor : Option String) (ns : List Node) :
    declarations (mapContentsAll f vendor ns) = declarations ns := by
  rw [mapContentsAll_eq_flatMap, (keepsDeclarations_mapContents vendor).declarations_flatMap]

/-- A change of declarations can be made before a pass over what stands deeper. -/
theorem OnlyDeclarations.mapContentsAll {change : List Node → List Node}
    (h : OnlyDeclarations change) (vendor : Option String) (ns : List Node) :
    Node.mapContentsAll f vendor (change ns) = change (Node.mapContentsAll f vendor ns) := by
  rw [mapContentsAll_eq_flatMap, mapContentsAll_eq_flatMap,
    h.flatMap (keepsDeclarations_mapContents vendor)]

mutual

/-- Two passes one after the other are one pass. -/
theorem mapContents_mapContents (hf : ∀ vendor, OnlyDeclarations (f vendor))
    (vendor : Option String) : (n : Node) →
    (n.mapContents f vendor).mapContents g vendor =
      n.mapContents (fun vendor => g vendor ∘ f vendor) vendor
  | leaf _ => rfl
  | block head children => by
    rw [mapContents, mapContents, mapContents, (hf _).mapContentsAll,
      mapContentsAll_mapContentsAll hf _ children]
    rfl

theorem mapContentsAll_mapContentsAll (hf : ∀ vendor, OnlyDeclarations (f vendor))
    (vendor : Option String) : (ns : List Node) →
    mapContentsAll g vendor (mapContentsAll f vendor ns) =
      mapContentsAll (fun vendor => g vendor ∘ f vendor) vendor ns
  | [] => rfl
  | n :: rest => by
    rw [mapContentsAll, mapContentsAll, mapContentsAll, mapContents_mapContents hf vendor n,
      mapContentsAll_mapContentsAll hf vendor rest]

end

/-! ## The declarations of a tree -/

mutual

/-- The declarations of a tree, each with the vendor whose browsers alone read
it. -/
def placed (vendor : Option String) : Node → List (Option String × Declaration)
  | leaf (.declaration d) => [(vendor, d)]
  | leaf _ => []
  | block head children => placedAll (head.vendorWithin vendor) children

/-- The declarations of some trees, each with the vendor whose browsers alone read
it. -/
def placedAll (vendor : Option String) : List Node → List (Option String × Declaration)
  | [] => []
  | n :: rest => placed vendor n ++ placedAll vendor rest

end

theorem placedAll_eq_flatMap (vendor : Option String) (ns : List Node) :
    placedAll vendor ns = ns.flatMap (placed vendor) := by
  induction ns with
  | nil => rfl
  | cons n rest ih => rw [placedAll, ih, List.flatMap_cons]

theorem placedAll_append (vendor : Option String) (ns ms : List Node) :
    placedAll vendor (ns ++ ms) = placedAll vendor ns ++ placedAll vendor ms := by
  rw [placedAll_eq_flatMap, placedAll_eq_flatMap, placedAll_eq_flatMap, List.flatMap_append]

/-- The declarations among the nodes of a list are declarations of the trees. -/
theorem mem_placedAll_of_mem_declarations {vendor : Option String} {ns : List Node}
    {d : Declaration} (h : d ∈ declarations ns) : (vendor, d) ∈ placedAll vendor ns := by
  induction ns with
  | nil => exact absurd h List.not_mem_nil
  | cons n rest ih =>
    rw [placedAll, List.mem_append]
    cases hn : n.declaration? with
    | none =>
      rw [declarations_cons_of_none hn] at h
      exact .inr (ih h)
    | some e =>
      obtain rfl := declaration?_eq_some.mp hn
      rw [declarations_cons_leaf] at h
      rcases List.mem_cons.mp h with rfl | h
      · exact .inl (by simp [placed])
      · exact .inr (ih h)

mutual

/-- The declarations of a tree are the same whoever reads it. -/
theorem map_snd_placed (u v : Option String) :
    (n : Node) → (placed u n).map Prod.snd = (placed v n).map Prod.snd
  | leaf l => by cases l <;> rfl
  | block head children => map_snd_placedAll _ _ children

theorem map_snd_placedAll (u v : Option String) :
    (ns : List Node) → (placedAll u ns).map Prod.snd = (placedAll v ns).map Prod.snd
  | [] => rfl
  | n :: rest => by
    rw [placedAll, placedAll, List.map_append, List.map_append, map_snd_placed u v n,
      map_snd_placedAll u v rest]

end

mutual

/-- Every declaration of a tree is placed once. -/
theorem length_placed (vendor : Option String) :
    (n : Node) → (placed vendor n).length = n.declarationCount
  | leaf l => by cases l <;> rfl
  | block head children => length_placedAll _ children

theorem length_placedAll (vendor : Option String) :
    (ns : List Node) → (placedAll vendor ns).length = declarationCountAll ns
  | [] => rfl
  | n :: rest => by
    rw [placedAll, List.length_append, length_placed vendor n, length_placedAll vendor rest,
      declarationCountAll]

end

mutual

/-- Two passes agree on a tree where they agree on every block that only has
declarations such as the tree has. -/
theorem mapContents_congr {p : Option String → Declaration → Prop}
    (h : ∀ vendor ns, (∀ d ∈ declarations ns, p vendor d) → f vendor ns = g vendor ns)
    (vendor : Option String) : (n : Node) → (∀ x ∈ placed vendor n, p x.1 x.2) →
    n.mapContents f vendor = n.mapContents g vendor
  | leaf _, _ => rfl
  | block head children, hn => by
    rw [placed] at hn
    rw [mapContents, mapContents, mapContentsAll_congr h _ children hn, h _ _ fun d hd => ?_]
    rw [declarations_mapContentsAll] at hd
    exact hn _ (mem_placedAll_of_mem_declarations hd)

theorem mapContentsAll_congr {p : Option String → Declaration → Prop}
    (h : ∀ vendor ns, (∀ d ∈ declarations ns, p vendor d) → f vendor ns = g vendor ns)
    (vendor : Option String) : (ns : List Node) → (∀ x ∈ placedAll vendor ns, p x.1 x.2) →
    mapContentsAll f vendor ns = mapContentsAll g vendor ns
  | [], _ => rfl
  | n :: rest, hns => by
    rw [placedAll] at hns
    rw [mapContentsAll, mapContentsAll,
      mapContents_congr h vendor n fun x hx => hns x (List.mem_append_left _ hx),
      mapContentsAll_congr h vendor rest fun x hx => hns x (List.mem_append_right _ hx)]

end

/-- A pass that leaves every block alone that only has declarations such as the
tree has leaves the tree alone. -/
theorem mapContents_eq_self {p : Option String → Declaration → Prop} {vendor : Option String}
    {n : Node} (h : ∀ vendor ns, (∀ d ∈ declarations ns, p vendor d) → f vendor ns = ns)
    (hn : ∀ x ∈ placed vendor n, p x.1 x.2) : n.mapContents f vendor = n := by
  rw [mapContents_congr (g := fun _ => id) h vendor n hn, mapContents_id]

/-! ## Filters -/

variable {keep : Node → Bool}

mutual

/-- A pass that filters declarations filters the declarations of the tree. -/
theorem placed_mapContents_filter (hkeep : ∀ n, n.declaration? = none → keep n = true)
    (vendor : Option String) : (n : Node) → n.declaration? = none →
    placed vendor (n.mapContents (fun _ => (·.filter keep)) vendor) =
      (placed vendor n).filter fun x => keep (leaf (.declaration x.2))
  | leaf l, hn => by
    cases l with
    | declaration d => cases hn
    | comment text => rfl
    | statement kind text => rfl
  | block head children, _ => placedAll_filter_mapContentsAll hkeep _ children

theorem placedAll_filter_mapContentsAll (hkeep : ∀ n, n.declaration? = none → keep n = true)
    (vendor : Option String) : (ns : List Node) →
    placedAll vendor ((mapContentsAll (fun _ => (·.filter keep)) vendor ns).filter keep) =
      (placedAll vendor ns).filter fun x => keep (leaf (.declaration x.2))
  | [] => rfl
  | n :: rest => by
    have hrest := placedAll_filter_mapContentsAll hkeep vendor rest
    rw [mapContentsAll, placedAll, List.filter_append]
    cases hn : n.declaration? with
    | none =>
      have hkept := hkeep _ ((declaration?_mapContents (fun _ => (·.filter keep)) vendor n).trans hn)
      rw [List.filter_cons_of_pos hkept, placedAll, hrest,
        placed_mapContents_filter hkeep vendor n hn]
    | some d =>
      obtain rfl := declaration?_eq_some.mp hn
      rw [mapContents, placed]
      by_cases hd : keep (leaf (.declaration d)) = true
      · rw [List.filter_cons_of_pos hd, placedAll, placed, hrest]
        simp [hd]
      · rw [List.filter_cons_of_neg hd, hrest]
        simp [hd]

end

/-- A filter that takes no declaration away takes nothing away. -/
theorem mapContents_filter_eq_self (hkeep : ∀ n, n.declaration? = none → keep n = true)
    {vendor : Option String} {n : Node}
    (h : ∀ x ∈ placed vendor n, keep (leaf (.declaration x.2)) = true) :
    n.mapContents (fun _ => (·.filter keep)) vendor = n := by
  refine mapContents_eq_self (p := fun _ d => keep (leaf (.declaration d)) = true)
    (fun _ ns hns => ?_) h
  rw [List.filter_eq_self]
  intro m hm
  cases hd : m.declaration? with
  | none => exact hkeep m hd
  | some d =>
    obtain rfl := declaration?_eq_some.mp hd
    exact hns d (mem_declarations.mpr hm)

/-- A filter never adds a declaration. -/
theorem declarationCount_mapContents_filter_le
    (hkeep : ∀ n, n.declaration? = none → keep n = true) (vendor : Option String) (n : Node) :
    (n.mapContents (fun _ => (·.filter keep)) vendor).declarationCount ≤ n.declarationCount := by
  cases hn : n.declaration? with
  | some d =>
    obtain rfl := declaration?_eq_some.mp hn
    exact Nat.le_refl _
  | none =>
    rw [← length_placed vendor, ← length_placed vendor, placed_mapContents_filter hkeep vendor n hn]
    exact List.length_filter_le _ _

/-- A filter that leaves the number of declarations as it is leaves the tree as it
is. -/
theorem mapContents_filter_eq_self_of_count
    (hkeep : ∀ n, n.declaration? = none → keep n = true) {vendor : Option String} {n : Node}
    (h : (n.mapContents (fun _ => (·.filter keep)) vendor).declarationCount =
      n.declarationCount) :
    n.mapContents (fun _ => (·.filter keep)) vendor = n := by
  cases hn : n.declaration? with
  | some d =>
    obtain rfl := declaration?_eq_some.mp hn
    rfl
  | none =>
    rw [← length_placed vendor, ← length_placed vendor, placed_mapContents_filter hkeep vendor n hn,
      List.length_filter_eq_length_iff] at h
    exact mapContents_filter_eq_self hkeep h

/-! ## Passes that add -/

mutual

/-- A pass that takes no declaration out of any block takes none out of the tree. -/
theorem declarationCount_le_mapContents
    (hle : ∀ vendor ns, declarationCountAll ns ≤ declarationCountAll (f vendor ns))
    (vendor : Option String) : (n : Node) →
    n.declarationCount ≤ (n.mapContents f vendor).declarationCount
  | leaf _ => Nat.le_refl _
  | block head children => by
    rw [mapContents, declarationCount, declarationCount]
    exact Nat.le_trans (declarationCountAll_le_mapContentsAll hle _ children) (hle _ _)

theorem declarationCountAll_le_mapContentsAll
    (hle : ∀ vendor ns, declarationCountAll ns ≤ declarationCountAll (f vendor ns))
    (vendor : Option String) : (ns : List Node) →
    declarationCountAll ns ≤ declarationCountAll (mapContentsAll f vendor ns)
  | [] => Nat.le_refl _
  | n :: rest => by
    rw [mapContentsAll, declarationCountAll, declarationCountAll]
    exact Nat.add_le_add (declarationCount_le_mapContents hle vendor n)
      (declarationCountAll_le_mapContentsAll hle vendor rest)

end

mutual

/-- A pass that adds no declaration to a tree does to every block what it does where
it adds none. -/
theorem mapContents_eq_of_count
    (hle : ∀ vendor ns, declarationCountAll ns ≤ declarationCountAll (f vendor ns))
    (heq : ∀ vendor ns, declarationCountAll (f vendor ns) = declarationCountAll ns →
      f vendor ns = g vendor ns)
    (vendor : Option String) : (n : Node) →
    (n.mapContents f vendor).declarationCount = n.declarationCount →
    n.mapContents f vendor = n.mapContents g vendor
  | leaf _, _ => rfl
  | block head children, h => by
    rw [mapContents, declarationCount, declarationCount] at h
    have hchildren := declarationCountAll_le_mapContentsAll hle (head.vendorWithin vendor) children
    have hblock := hle (head.vendorWithin vendor)
      (mapContentsAll f (head.vendorWithin vendor) children)
    rw [mapContents, mapContents, heq _ _ (by omega),
      mapContentsAll_eq_of_count hle heq _ children (by omega)]

theorem mapContentsAll_eq_of_count
    (hle : ∀ vendor ns, declarationCountAll ns ≤ declarationCountAll (f vendor ns))
    (heq : ∀ vendor ns, declarationCountAll (f vendor ns) = declarationCountAll ns →
      f vendor ns = g vendor ns)
    (vendor : Option String) : (ns : List Node) →
    declarationCountAll (mapContentsAll f vendor ns) = declarationCountAll ns →
    mapContentsAll f vendor ns = mapContentsAll g vendor ns
  | [], _ => rfl
  | n :: rest, h => by
    rw [mapContentsAll, declarationCountAll, declarationCountAll] at h
    have hfirst := declarationCount_le_mapContents hle vendor n
    have hrest := declarationCountAll_le_mapContentsAll hle vendor rest
    rw [mapContentsAll, mapContentsAll, mapContents_eq_of_count hle heq vendor n (by omega),
      mapContentsAll_eq_of_count hle heq vendor rest (by omega)]

end

/-! ## Passes that overwrite -/

variable {become : Option String → Declaration → List Declaration × Declaration}

mutual

/-- A pass that overwrites declarations overwrites the declarations of the tree. -/
theorem placed_mapContents_overwrite (vendor : Option String) :
    (n : Node) → n.declaration? = none →
    placed vendor (n.mapContents (fun vendor => (·.map (overwrite (become vendor)))) vendor) =
      (placed vendor n).map fun x => (x.1, (become x.1 x.2).2)
  | leaf l, hn => by
    cases l with
    | declaration d => cases hn
    | comment text => rfl
    | statement kind text => rfl
  | block head children, _ => placedAll_map_overwrite _ children

theorem placedAll_map_overwrite (vendor : Option String) : (ns : List Node) →
    placedAll vendor ((mapContentsAll (fun vendor => (·.map (overwrite (become vendor))))
      vendor ns).map (overwrite (become vendor))) =
      (placedAll vendor ns).map fun x => (x.1, (become x.1 x.2).2)
  | [] => rfl
  | n :: rest => by
    rw [mapContentsAll, List.map_cons, placedAll, placedAll, List.map_append,
      placedAll_map_overwrite vendor rest]
    cases hn : n.declaration? with
    | none =>
      rw [overwrite_of_none ((declaration?_mapContents _ vendor n).trans hn),
        placed_mapContents_overwrite vendor n hn]
    | some d =>
      obtain rfl := declaration?_eq_some.mp hn
      rfl

end

/-- A pass that overwrites declarations leaves a tree alone exactly where it
overwrites every declaration with itself. -/
theorem mapContents_overwrite_eq_self_iff {vendor : Option String} {n : Node}
    (hn : n.declaration? = none) :
    n.mapContents (fun vendor => (·.map (overwrite (become vendor)))) vendor = n ↔
      ∀ x ∈ placed vendor n, (become x.1 x.2).2 = x.2 := by
  constructor
  · intro h x hx
    have hplaced : placed vendor
        (n.mapContents (fun vendor => (·.map (overwrite (become vendor)))) vendor) =
          (placed vendor n).map fun x => (x.1, (become x.1 x.2).2) :=
      placed_mapContents_overwrite vendor n hn
    rw [h] at hplaced
    have hfixed := List.map_inj_left.mp (hplaced.symm.trans (List.map_id _).symm) x hx
    exact congrArg Prod.snd hfixed
  · intro h
    refine mapContents_eq_self (p := fun vendor d => (become vendor d).2 = d)
      (fun vendor ns hns => ?_) h
    refine (List.map_congr_left fun m hm => ?_).trans (List.map_id ns)
    cases hd : m.declaration? with
    | none => exact overwrite_of_none hd
    | some d =>
      obtain rfl := declaration?_eq_some.mp hd
      rw [overwrite_leaf, hns d (mem_declarations.mpr hm), id]

end Node
end VendorPrefixing
