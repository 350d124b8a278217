import VendorPrefixing.Proofs.Sheet.Contents

/-!
# Records of what is put into a style sheet

A record of growth is a style sheet in which every declaration carries what has been
put in front of it and what has become of itself, and in which the copies of animations
are set apart from the nodes that were there.  Erasing one side of a record gives the
style sheet from before, erasing the other side the style sheet after.

Main results:

- Theorem `Growth.placedAll_after`: the declarations of the style sheet after are the
  recorded ones.
- Theorem `Growth.declarationCountAll_after`: their number grows by what has been put
  in.
- Theorems `Growth.before_ofNode` and `Growth.after_ofNode`: without growth both sides are
  the same.
-/

namespace VendorPrefixing

/-- A node with what has been put in front of it, or a copy that has been put in. -/
inductive Growth
  | comment (text : String)
  | statement (kind : Statement) (text : String)
  /-- A declaration with the ones in front of it and what has become of itself. -/
  | declaration (front : List Declaration) (old new : Declaration)
  | block (head : Block) (children : List Growth)
  /-- A copy of an animation under a mark, with what has become of the frames. -/
  | copy (name mark : String) (frames : List Growth)

namespace Growth

open Node (placed placedAll)

/-! ## The two sides of a record -/

mutual

/-- What stood at the place of a node. -/
def before : Growth → List Node
  | comment text => [.leaf (.comment text)]
  | statement kind text => [.leaf (.statement kind text)]
  | declaration _ old _ => [.leaf (.declaration old)]
  | block head children => [.block head (beforeAll children)]
  | copy .. => []

/-- What stood at the places of some nodes. -/
def beforeAll : List Growth → List Node
  | [] => []
  | g :: rest => before g ++ beforeAll rest

end

mutual

/-- What stands at the place of a node. -/
def after : Growth → List Node
  | comment text => [.leaf (.comment text)]
  | statement kind text => [.leaf (.statement kind text)]
  | declaration front _ new => front.map (.leaf ∘ .declaration) ++ [.leaf (.declaration new)]
  | block head children => [.block head (afterAll children)]
  | copy name mark frames => [.block (.keyframes name (some mark)) (afterAll frames)]

/-- What stands at the places of some nodes. -/
def afterAll : List Growth → List Node
  | [] => []
  | g :: rest => after g ++ afterAll rest

end

theorem beforeAll_eq_flatMap (gs : List Growth) : beforeAll gs = gs.flatMap before := by
  induction gs with
  | nil => rfl
  | cons g rest ih => rw [beforeAll, ih, List.flatMap_cons]

@[simp]
theorem beforeAll_append (gs hs : List Growth) :
    beforeAll (gs ++ hs) = beforeAll gs ++ beforeAll hs := by
  rw [beforeAll_eq_flatMap, beforeAll_eq_flatMap, beforeAll_eq_flatMap, List.flatMap_append]

theorem afterAll_eq_flatMap (gs : List Growth) : afterAll gs = gs.flatMap after := by
  induction gs with
  | nil => rfl
  | cons g rest ih => rw [afterAll, ih, List.flatMap_cons]

@[simp]
theorem afterAll_append (gs hs : List Growth) :
    afterAll (gs ++ hs) = afterAll gs ++ afterAll hs := by
  rw [afterAll_eq_flatMap, afterAll_eq_flatMap, afterAll_eq_flatMap, List.flatMap_append]

/-! ## The declarations of a record -/

/-- A declaration of a record, with the vendor whose browsers alone read it. -/
structure Entry where
  vendor : Option String
  front : List Declaration
  old : Declaration
  new : Declaration

mutual

/-- The declarations of a record. -/
def entries (vendor : Option String) : Growth → List Entry
  | declaration front old new => [⟨vendor, front, old, new⟩]
  | block head children => entriesAll (head.vendorWithin vendor) children
  | copy _ mark frames => entriesAll (some mark) frames
  | _ => []

/-- The declarations of some records. -/
def entriesAll (vendor : Option String) : List Growth → List Entry
  | [] => []
  | g :: rest => entries vendor g ++ entriesAll vendor rest

end

theorem entriesAll_eq_flatMap (vendor : Option String) (gs : List Growth) :
    entriesAll vendor gs = gs.flatMap (entries vendor) := by
  induction gs with
  | nil => rfl
  | cons g rest ih => rw [entriesAll, ih, List.flatMap_cons]

@[simp]
theorem entriesAll_append (vendor : Option String) (gs hs : List Growth) :
    entriesAll vendor (gs ++ hs) = entriesAll vendor gs ++ entriesAll vendor hs := by
  rw [entriesAll_eq_flatMap, entriesAll_eq_flatMap, entriesAll_eq_flatMap, List.flatMap_append]

/-- What stands for a declaration of a record in the style sheet after. -/
def Entry.placed (e : Entry) : List (Option String × Declaration) :=
  (e.front ++ [e.new]).map fun d => (e.vendor, d)

/-- What has been written for a declaration: all that has been put in front of it, and what
has become of it if that is something else. -/
def Entry.written (e : Entry) : List Declaration :=
  e.front ++ if e.new = e.old then [] else [e.new]

/-- Only a declaration that stays as it is has not been written. -/
theorem Entry.mem_written_or {e : Entry} {d : Declaration} (h : d ∈ e.front ++ [e.new]) :
    d ∈ e.written ∨ d = e.old := by
  rw [written, List.mem_append]
  rw [List.mem_append, List.mem_singleton] at h
  rcases h with h | rfl
  · exact .inl (.inl h)
  · by_cases hsame : e.new = e.old
    · exact .inr hsame
    · rw [if_neg hsame]
      exact .inl (.inr (List.mem_singleton_self _))

theorem placedAll_map_leaf (vendor : Option String) (ds : List Declaration) :
    placedAll vendor (ds.map (.leaf ∘ .declaration)) = ds.map fun d => (vendor, d) := by
  induction ds with
  | nil => rfl
  | cons d ds ih =>
    rw [List.map_cons, placedAll, ih]
    rfl

mutual

/-- The declarations of the style sheet after are the recorded ones. -/
theorem placedAll_after (vendor : Option String) : (g : Growth) →
    placedAll vendor g.after = (g.entries vendor).flatMap Entry.placed
  | comment _ => rfl
  | statement .. => rfl
  | declaration front old new => by
    rw [after, entries, List.flatMap_singleton, Entry.placed, List.map_append,
      Node.placedAll_append, placedAll_map_leaf]
    rfl
  | block head children => by
    rw [after, placedAll, placedAll, List.append_nil, placed, entries,
      placedAll_afterAll _ children]
  | copy name mark frames => by
    rw [after, placedAll, placedAll, List.append_nil, placed, entries,
      ← placedAll_afterAll _ frames]
    rfl

theorem placedAll_afterAll (vendor : Option String) : (gs : List Growth) →
    placedAll vendor (afterAll gs) = (entriesAll vendor gs).flatMap Entry.placed
  | [] => rfl
  | g :: rest => by
    rw [afterAll, Node.placedAll_append, entriesAll, List.flatMap_append,
      placedAll_after vendor g, placedAll_afterAll vendor rest]

end

/-- The number of declarations that have been put in. -/
def inserted (es : List Entry) : Nat :=
  (es.flatMap Entry.front).length

theorem length_flatMap_placed (es : List Entry) :
    (es.flatMap Entry.placed).length = inserted es + es.length := by
  induction es with
  | nil => rfl
  | cons e es ih =>
    rw [List.flatMap_cons, List.length_append, ih, Entry.placed, List.length_map,
      List.length_append, List.length_singleton, inserted, inserted, List.flatMap_cons,
      List.length_append, List.length_cons]
    omega

/-- The style sheet after has the recorded declarations and the ones in front of
them. -/
theorem declarationCountAll_after (g : Growth) :
    Node.declarationCountAll g.after =
      inserted (g.entries none) + (g.entries none).length := by
  rw [← Node.length_placedAll none, placedAll_after, length_flatMap_placed]

/-! ## Copies -/

/-- A copy of a record, with the frames that have been copied and the node in front of
which it has been put. -/
structure Copied where
  name : String
  mark : String
  frames : List Node
  next : Option Node

mutual

/-- The copies in a record in front of `next`. -/
def copiesIn (next : Option Node) : Growth → List Copied
  | copy name mark frames => ⟨name, mark, beforeAll frames, next⟩ :: copiesAll none frames
  | block _ children => copiesAll none children
  | _ => []

/-- The copies in some records in front of `next`. -/
def copiesAll (next : Option Node) : List Growth → List Copied
  | [] => []
  | g :: rest => copiesIn ((beforeAll rest).head? <|> next) g ++ copiesAll next rest

end

/-- The copies in the record of a style sheet. -/
def copies (g : Growth) : List Copied :=
  copiesIn none g

theorem copiesAll_append (next : Option Node) (gs hs : List Growth) :
    copiesAll next (gs ++ hs) =
      copiesAll ((beforeAll hs).head? <|> next) gs ++ copiesAll next hs := by
  induction gs with
  | nil => rfl
  | cons g rest ih =>
    rw [List.cons_append, copiesAll, copiesAll, ih, beforeAll_append, List.head?_append,
      List.append_assoc]
    cases (beforeAll rest).head? <;> rfl

/-! ## Records without growth -/

mutual

/-- The record of a node to which nothing has happened. -/
def ofNode : Node → Growth
  | .leaf (.declaration d) => declaration [] d d
  | .leaf (.comment text) => comment text
  | .leaf (.statement kind text) => statement kind text
  | .block head children => block head (ofNodeAll children)

/-- The records of nodes to which nothing has happened. -/
def ofNodeAll : List Node → List Growth
  | [] => []
  | n :: rest => ofNode n :: ofNodeAll rest

end

mutual

theorem before_ofNode : (n : Node) → (ofNode n).before = [n]
  | .leaf l => by cases l <;> rfl
  | .block head children => by rw [ofNode, before, beforeAll_ofNodeAll children]

@[simp]
theorem beforeAll_ofNodeAll : (ns : List Node) → beforeAll (ofNodeAll ns) = ns
  | [] => rfl
  | n :: rest => by
    rw [ofNodeAll, beforeAll, before_ofNode n, beforeAll_ofNodeAll rest, List.singleton_append]

end

mutual

theorem after_ofNode : (n : Node) → (ofNode n).after = [n]
  | .leaf l => by cases l <;> rfl
  | .block head children => by rw [ofNode, after, afterAll_ofNodeAll children]

@[simp]
theorem afterAll_ofNodeAll : (ns : List Node) → afterAll (ofNodeAll ns) = ns
  | [] => rfl
  | n :: rest => by
    rw [ofNodeAll, afterAll, after_ofNode n, afterAll_ofNodeAll rest, List.singleton_append]

end

/-- Whether nothing has happened to a declaration. -/
structure Entry.IsFresh (e : Entry) : Prop where
  front_eq : e.front = []
  new_eq : e.new = e.old

theorem Entry.IsFresh.written_eq {e : Entry} (h : e.IsFresh) : e.written = [] := by
  rw [written, h.front_eq, if_pos h.new_eq, List.append_nil]

/-- Where nothing has happened nothing has been put in. -/
theorem inserted_eq_zero {es : List Entry} (h : ∀ e ∈ es, e.IsFresh) : inserted es = 0 := by
  rw [inserted, List.length_eq_zero_iff, List.flatMap_eq_nil_iff]
  intro e he
  exact (h e he).front_eq

mutual

theorem isFresh_ofNode (vendor : Option String) : (n : Node) →
    ∀ e ∈ (ofNode n).entries vendor, e.IsFresh
  | .leaf l => by
    cases l with
    | declaration d =>
      intro e he
      obtain rfl := List.mem_singleton.mp he
      exact ⟨rfl, rfl⟩
    | comment text => exact List.forall_mem_nil _
    | statement kind text => exact List.forall_mem_nil _
  | .block head children => isFresh_ofNodeAll _ children

theorem isFresh_ofNodeAll (vendor : Option String) : (ns : List Node) →
    ∀ e ∈ entriesAll vendor (ofNodeAll ns), e.IsFresh
  | [] => List.forall_mem_nil _
  | n :: rest => by
    rw [ofNodeAll, entriesAll, List.forall_mem_append]
    exact ⟨isFresh_ofNode vendor n, isFresh_ofNodeAll vendor rest⟩

end

mutual

theorem copiesIn_ofNode (next : Option Node) : (n : Node) → copiesIn next (ofNode n) = []
  | .leaf l => by cases l <;> rfl
  | .block head children => copiesAll_ofNodeAll none children

@[simp]
theorem copiesAll_ofNodeAll (next : Option Node) :
    (ns : List Node) → copiesAll next (ofNodeAll ns) = []
  | [] => rfl
  | n :: rest => by
    rw [ofNodeAll, copiesAll, copiesIn_ofNode _ n, copiesAll_ofNodeAll next rest,
      List.append_nil]

end

end Growth
end VendorPrefixing
