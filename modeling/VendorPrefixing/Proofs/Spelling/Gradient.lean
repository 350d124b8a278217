import Mathlib.Data.List.Forall2
import VendorPrefixing.Proofs.Value.Call
import VendorPrefixing.Proofs.Value.Exchange
import VendorPrefixing.Spelling.Gradient

/-!
# What marking gradients writes

A marked gradient differs from the standard one in its name and possibly in its
first argument, where a direction has been turned around.  Both are edits between
characters that no name can hold.

Main results:

- Theorem `Gradient.fromSide?_eq_some_iff`: what is turned around are sides.
- Theorem `Gradient.rewrites_oldArguments`: the arguments change in a direction at their front
  or not at all.
- Theorem `Gradient.swept_call`: in a call only the name and a direction are edited.
- Theorem `Gradient.edited_marked`: marking edits names and directions, and at
  least one name.
-/

namespace VendorPrefixing

open Word (isSeparator endsHere StandsAt StartsAt)

/-- Whether a text is cut in front of its first top-level comma, or holds none.  `n` is the
nesting at its front. -/
structure IsFirstPiece (n : Nesting) (first rest : List Char) : Prop where
  not_isTop : ∀ before after, first = before ++ ',' :: after →
    (before.foldl Nesting.step n).isTop = false
  isTop : ∀ c, rest.head? = some c → c = ',' ∧ (first.foldl Nesting.step n).isTop = true

/-- No other cut of a text yields its first piece. -/
theorem IsFirstPiece.eq_of_append {n : Nesting} {first rest first' rest' : List Char}
    (h : IsFirstPiece n first rest) (h' : IsFirstPiece n first' rest')
    (heq : first ++ rest = first' ++ rest') : first = first' := by
  have hshort : ∀ {a b between : List Char}, IsFirstPiece n a (between ++ b) →
      IsFirstPiece n (a ++ between) b → between = [] := by
    intro a b between ha hb
    cases between with
    | nil => rfl
    | cons c between =>
      obtain ⟨rfl, htop⟩ := ha.isTop c rfl
      rw [hb.not_isTop a between rfl] at htop
      cases htop
  rcases List.append_eq_append_iff.mp heq with ⟨between, rfl, rfl⟩ | ⟨between, rfl, rfl⟩
  · rw [hshort h h', List.append_nil]
  · rw [hshort h' h, List.append_nil]

namespace Chars

/-- The first piece of a cut at commas is what stands before the first top-level one. -/
theorem exists_headD_splitFrom (n : Nesting) (piece s : List Char) :
    ∃ first rest, s = first ++ rest ∧ (splitFrom n piece s).headD [] = piece.reverse ++ first ∧
      IsFirstPiece n first rest := by
  induction s generalizing n piece with
  | nil =>
    refine ⟨[], [], rfl, by simp [splitFrom], fun before after h => ?_, fun c hc => ?_⟩
    · have hlength := congrArg List.length h
      simp at hlength
    · cases hc
  | cons c s ih =>
    rw [splitFrom]
    split
    · rename_i h
      simp only [Bool.and_eq_true, beq_iff_eq] at h
      refine ⟨[], c :: s, rfl, by simp, fun before after hnil => ?_, fun d hd => ?_⟩
      · have hlength := congrArg List.length hnil
        simp at hlength
      · cases hd
        exact ⟨h.2, h.1⟩
    · rename_i h
      obtain ⟨first, rest, rfl, hhead, hpiece⟩ := ih (n.step c) (c :: piece)
      refine ⟨c :: first, rest, rfl, ?_, fun before after heq => ?_, hpiece.isTop⟩
      · rw [hhead, List.reverse_cons, List.append_assoc, List.singleton_append]
      · cases before with
        | nil =>
          simp only [List.nil_append, List.cons.injEq] at heq
          rw [heq.1] at h
          simpa using h
        | cons d before =>
          simp only [List.cons_append, List.cons.injEq] at heq
          obtain ⟨rfl, heq⟩ := heq
          exact hpiece.not_isTop before after heq

end Chars

namespace Gradient

/-! ## Directions -/

/-- The sides of a box, each with the opposite one. -/
def oppositeSides : List (String × String) :=
  [("top", "bottom"), ("bottom", "top"), ("left", "right"), ("right", "left")]

/-- Whether a direction tells the sides that a gradient goes to, and a text the opposite sides in
the same order. -/
def TurnsSides (direction new : List Char) : Prop :=
  ∃ sides others, sides ≠ [] ∧ List.Forall₂ (fun a b => (a, b) ∈ oppositeSides) sides others ∧
    (Chars.words direction).map String.ofList = "to" :: sides ∧ new = (Text.join " " others).toList

/-- Whether a direction is a number of degrees, and a text ends in the unit as well. -/
def TurnsAngle (direction new : List Char) : Prop :=
  ∃ number, direction = number ++ "deg".toList ∧ (Chars.real? number).isSome = true ∧
    "deg".toList <:+ new

/-- Whether a first argument is a direction that is turned into another text. -/
def Turns (vendor : String) (old new : List Char) : Prop :=
  fromSide? (Chars.trim old) = some new ∨
    vendor = "-webkit-" ∧ oldAngle? (Chars.trim old) = some new

/-- What becomes of the arguments of a gradient under a vendor mark: the sides that they begin
with are turned around, or the angle for a linear gradient under `-webkit-`, and otherwise
nothing changes.  White space around a direction goes with it. -/
inductive Rewrites (vendor : String) (name : List Char) : List Char → List Char → Prop
  | keep {arguments : List Char} : (∀ first rest new, arguments = first ++ rest →
    IsFirstPiece .outside first rest → ¬ TurnsSides (Chars.trim first) new) →
      Rewrites vendor name arguments arguments
  | sides {first new rest : List Char} : IsFirstPiece .outside first rest →
    TurnsSides (Chars.trim first) new → Rewrites vendor name (first ++ rest) (new ++ rest)
  | angle {first new rest : List Char} : IsFirstPiece .outside first rest →
    vendor = "-webkit-" → "linear-gradient".toList <:+ name → TurnsAngle (Chars.trim first) new →
      Rewrites vendor name (first ++ rest) (new ++ rest)

theorem opposite?_eq_some_iff {side other : String} :
    opposite? side = some other ↔ (side, other) ∈ oppositeSides := by
  constructor
  · intro h
    unfold opposite? at h
    split at h
    case h_5 => cases h
    all_goals
      cases h
      decide
  · have hpairs : ∀ pair ∈ oppositeSides, opposite? pair.1 = some pair.2 := by decide
    exact hpairs (side, other)

theorem mapM_eq_some_iff_forall₂ {sides others : List String} :
    sides.mapM opposite? = some others ↔
      List.Forall₂ (fun a b => (a, b) ∈ oppositeSides) sides others := by
  induction sides generalizing others with
  | nil => simp [eq_comm]
  | cons side sides ih =>
    rw [List.mapM_cons, Option.bind_eq_bind, Option.bind_eq_some_iff]
    simp only [Option.bind_eq_bind, Option.bind_eq_some_iff, opposite?_eq_some_iff, ih,
      List.forall₂_cons_left_iff, Option.pure_def, Option.some.injEq]
    constructor
    · rintro ⟨other, hother, rest, hrest, rfl⟩
      exact ⟨other, rest, hother, hrest, rfl⟩
    · rintro ⟨other, rest, hother, hrest, rfl⟩
      exact ⟨other, hother, rest, hrest, rfl⟩

/-- What is turned around are sides, and all of them are. -/
theorem fromSide?_eq_some_iff {direction new : List Char} :
    fromSide? direction = some new ↔ TurnsSides direction new := by
  rw [fromSide?]
  constructor
  · intro h
    split at h
    · rename_i side sides hwords
      obtain ⟨others, hothers, rfl⟩ := Option.map_eq_some_iff.mp h
      exact ⟨side :: sides, others, List.cons_ne_nil side sides,
        mapM_eq_some_iff_forall₂.mp hothers, hwords, rfl⟩
    · cases h
  · rintro ⟨sides, others, hne, hopposite, hwords, rfl⟩
    cases sides with
    | nil => exact absurd rfl hne
    | cons side sides =>
      rw [hwords]
      simp only [mapM_eq_some_iff_forall₂.mpr hopposite, Option.map_some]

/-- What is turned otherwise is an angle. -/
theorem turnsAngle_of_oldAngle? {direction new : List Char}
    (h : oldAngle? direction = some new) : TurnsAngle direction new := by
  rw [oldAngle?] at h
  split at h
  · rename_i hdeg
    split at h
    · rename_i degrees hdegrees
      split at h
      · obtain rfl := Option.some.inj h
        obtain ⟨number, hnumber⟩ := List.isSuffixOf_iff_suffix.mp hdeg
        have hlength : (number ++ "deg".toList).length - 3 = number.length := by
          simp
        rw [← hnumber, hlength, List.take_left] at hdegrees
        exact ⟨number, hnumber.symm, by rw [hdegrees, Option.isSome_some], List.suffix_append _ _⟩
      · cases h
    · cases h
  · cases h

/-- What marking gradients writes: marked names and turned directions. -/
def Edits (m : Matcher) (vendor : String) (old new : List Char) : Prop :=
  m.Replaces (vendor ++ ·) old new ∨ Turns vendor old new

variable {m : Matcher} {vendor value : String}

/-! ## Arguments -/

/-- What is written for the first argument of a gradient, if it is a direction to turn. -/
def turned? (name : List Char) (vendor : String) (arguments : List Char) : Option (List Char) :=
  let direction := Chars.trim ((Chars.splitArguments arguments).headD [])
  fromSide? direction <|>
    (if "linear-gradient".toList.isSuffixOf name && vendor == "-webkit-" then oldAngle? direction
    else none)

theorem oldArguments_eq (name : List Char) (vendor : String) (arguments : List Char) :
    oldArguments name vendor arguments =
      match turned? name vendor arguments with
      | some direction =>
        direction ++ arguments.drop ((Chars.splitArguments arguments).headD []).length
      | none => arguments :=
  rfl

/-- Arguments that do not begin with such a direction are kept. -/
theorem oldArguments_of_turned?_none {name arguments : List Char}
    (h : turned? name vendor arguments = none) :
    oldArguments name vendor arguments = arguments := by
  rw [oldArguments_eq, h]

/-- Where there is one, everything from the first top-level comma on is kept. -/
theorem oldArguments_of_turned?_some {name arguments direction : List Char}
    (h : turned? name vendor arguments = some direction) :
    ∃ first rest, arguments = first ++ rest ∧ IsFirstPiece .outside first rest ∧
      oldArguments name vendor arguments = direction ++ rest ∧
        (fromSide? (Chars.trim first) = some direction ∨
          vendor = "-webkit-" ∧ "linear-gradient".toList <:+ name ∧
            oldAngle? (Chars.trim first) = some direction) := by
  obtain ⟨first, rest, harguments, hfirst, hpiece⟩ :=
    Chars.exists_headD_splitFrom .outside [] arguments
  rw [List.reverse_nil, List.nil_append] at hfirst
  refine ⟨first, rest, harguments, hpiece, ?_, ?_⟩
  · rw [oldArguments_eq, h, Chars.splitArguments, hfirst, harguments, List.drop_left]
  · rw [turned?, Chars.splitArguments, hfirst] at h
    cases hside : fromSide? (Chars.trim first) with
    | some side =>
      rw [hside] at h
      exact .inl h
    | none =>
      rw [hside] at h
      simp only [Option.orElse_eq_orElse, Option.orElse_eq_or, Option.none_or] at h
      split at h
      · rename_i hlinear
        simp only [Bool.and_eq_true, beq_iff_eq, List.isSuffixOf_iff_suffix] at hlinear
        exact .inr ⟨hlinear.2, hlinear.1, h⟩
      · cases h

/-- Sides at the front of the arguments are turned around, an angle may be, and nothing else
changes. -/
theorem rewrites_oldArguments (vendor : String) (name arguments : List Char) :
    Rewrites vendor name arguments (oldArguments name vendor arguments) := by
  cases hturned : turned? name vendor arguments with
  | none =>
    rw [oldArguments_of_turned?_none hturned]
    refine .keep fun first rest new harguments hpiece hturns => ?_
    obtain ⟨front, behind, hfront, hhead, hfrontPiece⟩ :=
      Chars.exists_headD_splitFrom .outside [] arguments
    rw [List.reverse_nil, List.nil_append] at hhead
    obtain rfl := hpiece.eq_of_append hfrontPiece (harguments.symm.trans hfront)
    rw [turned?, Chars.splitArguments, hhead, fromSide?_eq_some_iff.mpr hturns] at hturned
    cases hturned
  | some direction =>
    obtain ⟨first, rest, rfl, hpiece, heq, hside | ⟨hvendor, hlinear, hangle⟩⟩ :=
      oldArguments_of_turned?_some hturned
    · rw [heq]
      exact .sides hpiece (fromSide?_eq_some_iff.mp hside)
    · rw [heq]
      exact .angle hpiece hvendor hlinear (turnsAngle_of_oldAngle? hangle)

variable {text : List Char} {position : Nat} {stays : List Char → Prop}

/-- A stretch and the parenthesis behind it may be kept if everything in them may stay. -/
theorem swept_closed {free : Bool} {s rest t : List Char} {later : List (List Char)}
    (htext : text.drop position = s ++ ')' :: rest) (hfree : free = true → StartsAt text position)
    (hstays : ∀ place, position ≤ place → place ≤ position + s.length → StartsAt text place →
      stays (text.drop place))
    (hrest : Swept (Edits m vendor) stays true rest t later) :
    Swept (Edits m vendor) stays free (s ++ ')' :: rest) (s ++ ')' :: t) later := by
  have hclosed : freeAfter free (s ++ [')']) = true := freeAfter_concat free s ')'
  rw [← hclosed] at hrest
  rw [← List.singleton_append, ← List.append_assoc] at htext
  have h := hrest.append_left htext hfree fun place hle hlt hstart => by
    rw [List.length_append, List.length_singleton] at hlt
    exact hstays place hle (by omega) hstart
  rwa [List.append_assoc, List.append_assoc] at h

/-- Only a direction is edited in the arguments of a call. -/
theorem swept_oldArguments (name : List Char) {arguments rest t : List Char}
    {later : List (List Char)} (htext : text.drop position = arguments ++ ')' :: rest)
    (hstart : StartsAt text position)
    (hstays : ∀ place, position ≤ place → place ≤ position + arguments.length →
      StartsAt text place → stays (text.drop place))
    (hrest : Swept (Edits m vendor) stays true rest t later) :
    Swept (Edits m vendor) stays true (arguments ++ ')' :: rest)
      (oldArguments name vendor arguments ++ ')' :: t)
      ((turned? name vendor arguments).toList ++ later) := by
  cases hturned : turned? name vendor arguments with
  | none =>
    rw [oldArguments_of_turned?_none hturned]
    exact swept_closed htext (fun _ => hstart) hstays hrest
  | some direction =>
    obtain ⟨first, behind, rfl, hpiece, heq, hturns⟩ := oldArguments_of_turned?_some hturned
    have hends : endsHere (behind ++ ')' :: rest) = true := by
      cases behind with
      | nil => rfl
      | cons c behind =>
        obtain ⟨rfl, -⟩ := hpiece.isTop c rfl
        rfl
    rw [List.append_assoc] at htext
    have hdrop : text.drop (position + first.length) = behind ++ ')' :: rest :=
      Word.drop_of_append htext
    have hkept : Swept (Edits m vendor) stays false (behind ++ ')' :: rest) (behind ++ ')' :: t)
        later := by
      refine swept_closed hdrop (fun h => Bool.noConfusion h)
        (fun place hle hlt => hstays place (by omega) ?_) hrest
      rw [List.length_append]
      omega
    rw [heq, List.append_assoc, List.append_assoc]
    exact .edit (.inr (hturns.imp_right fun h => ⟨h.1, h.2.2⟩)) hends hkept

/-! ## Calls -/

/-- A call under a vendor mark. -/
def markedCall (vendor : String) (c : Call) : List Char :=
  vendor.toList ++ c.name ++ '(' :: oldArguments c.name vendor c.arguments ++ [')']

/-- What is written into a call under a vendor mark. -/
def callNews (vendor : String) (c : Call) : List (List Char) :=
  (vendor.toList ++ c.name) :: (turned? c.name vendor c.arguments).toList

/-- In a call only the name and a direction are edited, if everything else in it may stay. -/
theorem swept_call (hne : m.names ≠ []) (vendor : String) {c : Call} (h : c ∈ m.calls value)
    (hstays : ∀ place, c.start < place → place < c.stop → StartsAt value.toList place →
      stays (value.toList.drop place))
    {t : List Char} {later : List (List Char)}
    (hrest : Swept (Edits m vendor) stays true (value.toList.drop c.stop) t later) :
    Swept (Edits m vendor) stays true (value.toList.drop c.start)
      (markedCall vendor c ++ t) (callNews vendor c ++ later) := by
  obtain ⟨o, ho, hstart, hname, hdrop⟩ := Matcher.exists_occurrence_of_mem_calls h
  obtain ⟨⟨name, hmem, heq⟩, hstands⟩ := Matcher.standsAt_of_mem_occurrences hne ho
  have hreplaces : m.Replaces (vendor ++ ·) o.name (vendor.toList ++ o.name) :=
    ⟨name, hmem, heq, by rw [heq, String.toList_append]⟩
  have hstop : c.stop = o.stop + 1 + c.arguments.length + 1 := by
    rw [Call.stop, Occurrence.stop, hstart, hname]
    omega
  have hbefore : c.start ≤ o.stop := by
    rw [hstart]
    exact Nat.le_add_right _ _
  have harguments := swept_oldArguments c.name (Word.drop_succ_of_cons hdrop)
    (Word.startsAt_succ hdrop rfl)
    (fun place hle hlt => hstays place (by omega) (by omega)) hrest
  have hopen : Swept (Edits m vendor) stays false (value.toList.drop o.stop)
      ('(' :: (oldArguments c.name vendor c.arguments ++ ')' :: t))
      ((turned? c.name vendor c.arguments).toList ++ later) := by
    rw [hdrop]
    exact .keep '(' (fun h => Bool.noConfusion h) harguments
  have hcall := Swept.edit (.inl hreplaces) hstands.ends hopen
  rw [hstands.append_drop, ← hname, ← hstart] at hcall
  simpa [markedCall, callNews, List.append_assoc] using hcall

/-- Marking edits names and directions, and at least one name. -/
theorem edited_marked (vendor : String) (h : m.finds value = true) :
    ∃ news, Edited (Edits m vendor) true value.toList (marked m vendor value).toList news ∧
      ∃ name ∈ m.names, (vendor ++ name).toList ∈ news := by
  have hne := Matcher.names_ne_nil_of_finds h
  rw [marked]
  split
  · refine ⟨_, (Matcher.edited_replace hne (vendor ++ ·) value).mono fun _ _ => .inl, ?_⟩
    obtain ⟨o, ho⟩ := List.exists_mem_of_ne_nil _ (Matcher.occurrences_ne_nil_of_finds h)
    obtain ⟨⟨name, hname, heq⟩, -⟩ := Matcher.standsAt_of_mem_occurrences hne ho
    refine ⟨name, hname, List.mem_map.mpr ⟨o, ho, ?_⟩⟩
    rw [heq, String.ofList_toList]
  · rename_i hcalls
    obtain ⟨ys, hfirst, -, hedited⟩ := @edited_applyEdits (Edits m vendor) value.toList _
      (fun c => ⟨c.start, c.stop, markedCall vendor c⟩) (callNews vendor) true (m.calls value)
      (fun c hc => Matcher.starts_of_mem_calls hc)
      (fun c _ => by simp only [Call.stop]; omega)
      (fun c hc _ _ ht =>
        (swept_call hne vendor hc (fun _ _ _ _ => trivial) (Swept.of_edited ht)).edited)
      (.inl rfl) 0 true (.inl rfl)
    rw [String.toList_ofList]
    refine ⟨_, hedited, ?_⟩
    obtain ⟨c, hc⟩ : ∃ c, (m.calls value).head? = some c := by
      cases hhead : (m.calls value).head? with
      | none => exact absurd (List.head?_eq_none_iff.mp hhead) hcalls
      | some c => exact ⟨c, rfl⟩
    obtain ⟨o, ho, -, hname, -⟩ := Matcher.exists_occurrence_of_mem_calls (List.mem_of_head? hc)
    obtain ⟨⟨name, hmem, heq⟩, -⟩ := Matcher.standsAt_of_mem_occurrences hne ho
    refine ⟨name, hmem, List.mem_flatMap.mpr ⟨c, hfirst c hc (Nat.zero_le _), ?_⟩⟩
    rw [callNews, hname, heq, String.toList_append]
    exact List.mem_cons_self

end Gradient
end VendorPrefixing
