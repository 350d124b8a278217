import VendorPrefixing.Proofs.Feature.Gradient

/-!
# Calls inside of calls

The program cuts the calls of a gradient out of a value one after the other, which it does not
survive if one of them stands inside of another one.  Exchanging other names leaves the
parentheses of a value alone, so no call comes to stand inside of another one that way.

Main results:

- Theorem `Gradient.crashes_eq_false_iff`: marking a gradient ends the program unless its calls
  stand apart.
- Theorem `Gradient.apart_iff`: calls stand apart unless one of them stands inside of another
  one.
- Theorem `Gradient.Nests.of_edited`: a call inside of another one has been there before.
-/

namespace VendorPrefixing
namespace Gradient

open Chars (closeParen?)

/-! ## Calls that overlap -/

/-- Cutting succeeds when every call begins behind the one before it. -/
theorem overlap_eq_false_iff {passed : Nat} {calls : List Call} :
    overlap passed calls = false ↔
      (∀ c ∈ calls, passed ≤ c.start) ∧ calls.Pairwise fun c d => c.stop ≤ d.start := by
  induction calls generalizing passed with
  | nil => simp [overlap]
  | cons c calls ih =>
    have hstop : c.start ≤ c.stop := by
      rw [c.stop_eq]
      omega
    simp only [overlap, Bool.or_eq_false_iff, decide_eq_false_iff_not, Nat.not_lt, ih,
      List.forall_mem_cons, List.pairwise_cons]
    constructor
    · intro ⟨hpassed, hbehind, hrest⟩
      refine ⟨⟨hpassed, fun d hd => ?_⟩, hbehind, hrest⟩
      have := hbehind d hd
      omega
    · intro ⟨⟨hpassed, _⟩, hbehind, hrest⟩
      exact ⟨hpassed, hbehind, hrest⟩

/-- Marking a gradient ends the program unless its calls stand apart. -/
theorem crashes_eq_false_iff {m : Matcher} {value : String} :
    crashes m value = false ↔ Apart (m.calls value) := by
  rw [crashes, overlap_eq_false_iff]
  constructor
  · intro h
    exact h.2.imp .inl
  · intro h
    exact ⟨fun c _ => Nat.zero_le c.start, h.pairwise_stop_le⟩

/-! ## Calls inside of calls -/

/-- Whether a call of a name stands inside of another one. -/
inductive Nests (name : List Char) : List Char → Prop
  | mk {before between behind : List Char} :
    freeAfter true before = true → freeAfter true between = true →
    closeParen? .insideCall between = none →
    (closeParen? .insideCall (between ++ name ++ '(' :: behind)).isSome = true →
    (closeParen? .insideCall behind).isSome = true →
      Nests name (before ++ name ++ '(' :: (between ++ name ++ '(' :: behind))

variable {name value : String} {c d : Call}

/-- Behind the name of a call and its parenthesis, the search ends with the arguments. -/
theorem exists_close_of_mem_calls (h : c ∈ (Matcher.single name).calls value) :
    ∃ back, value.toList.drop c.start = name.toList ++ '(' :: back ∧
      closeParen? .insideCall back = some c.arguments.length ∧
        c.stop = c.start + name.toList.length + c.arguments.length + 2 := by
  obtain ⟨o, ho, hcall⟩ := List.mem_filterMap.mp h
  obtain ⟨-, -, -, hclose⟩ := Word.call?_eq_some_iff.mp hcall
  refine ⟨_, ?_, hclose, ?_⟩
  · rw [Matcher.drop_start_of_mem_calls h, Call.text, name_of_mem_calls h]
    simp
  · rw [Call.stop, name_of_mem_calls h]

/-- What stands between the name of a call and a later one, and what follows that name. -/
theorem exists_between_of_mem_calls {start : Nat} {back : List Char}
    (hback : value.toList.drop start = back) (hd : d ∈ (Matcher.single name).calls value)
    (hle : start ≤ d.start) :
    ∃ between behind, back = between ++ name.toList ++ '(' :: behind ∧
      between = back.take (d.start - start) ∧ freeAfter true between = true ∧
        (closeParen? .insideCall behind).isSome = true := by
  obtain ⟨behind, hdrop, hclose, -⟩ := exists_close_of_mem_calls hd
  have hrest : back.drop (d.start - start) = name.toList ++ '(' :: behind := by
    rw [← hback, List.drop_drop, Nat.add_sub_cancel' hle, hdrop]
  refine ⟨back.take (d.start - start), behind, ?_, rfl, ?_, ?_⟩
  · rw [List.append_assoc, ← hrest, List.take_append_drop]
  · rw [← hback]
    exact freeAfter_of_startsAt (Matcher.starts_of_mem_calls hd) hle fun _ => rfl
  · rw [hclose, Option.isSome_some]

/-- A call that begins before another one has ended stands inside of it. -/
theorem nests_of_mem_calls (hc : c ∈ (Matcher.single name).calls value)
    (hd : d ∈ (Matcher.single name).calls value)
    (hlt : c.start + name.toList.length < d.start) (hinside : d.start < c.stop) :
    Nests name.toList value.toList := by
  obtain ⟨back, hdrop, hclose, hstop⟩ := exists_close_of_mem_calls hc
  have hback : value.toList.drop (c.start + (name.toList ++ ['(']).length) = back := by
    apply Word.drop_of_append
    simp [hdrop]
  have hopen : (name.toList ++ ['(']).length = name.toList.length + 1 := List.length_append
  obtain ⟨between, behind, hsplit, hbetween, hfree, hinner⟩ :=
    exists_between_of_mem_calls hback hd (by omega)
  have hnone : closeParen? .insideCall between = none := by
    rw [hbetween]
    apply Chars.closeParen?_take_eq_none hclose
    omega
  have hbefore : freeAfter true (value.toList.take c.start) = true :=
    @freeAfter_of_startsAt _ 0 _ _ (Matcher.starts_of_mem_calls hc) (Nat.zero_le _) fun _ => rfl
  have htext : value.toList = value.toList.take c.start ++ name.toList ++
      '(' :: (between ++ name.toList ++ '(' :: behind) := by
    rw [← hsplit, List.append_assoc, ← hdrop, List.take_append_drop]
  rw [htext]
  apply Nests.mk hbefore hfree hnone
  · rw [← hsplit, hclose, Option.isSome_some]
  · exact hinner

/-- A name in front of arguments that are closed is found. -/
theorem exists_call_of_append (hword : IsWord name) {before back : List Char}
    (htext : value.toList = before ++ name.toList ++ '(' :: back)
    (hfree : freeAfter true before = true)
    (hclose : (closeParen? .insideCall back).isSome = true) :
    ∃ c ∈ (Matcher.single name).calls value, c.start = before.length := by
  obtain ⟨size, hsize⟩ := Option.isSome_iff_exists.mp hclose
  have hstands : Word.StandsAt value.toList name.toList before.length := by
    rw [htext]
    exact standsAt_append hfree rfl
  have hdrop : value.toList.drop before.length = name.toList ++ '(' :: back := by
    rw [htext, List.append_assoc, List.drop_left]
  exact exists_call_of_standsAt hword hstands.starts hdrop hsize

/-- Both of two calls inside of each other are found. -/
theorem exists_calls_of_nests (hword : IsWord name) (h : Nests name.toList value.toList) :
    ∃ c ∈ (Matcher.single name).calls value, ∃ d ∈ (Matcher.single name).calls value,
      c.start < d.start ∧ d.start < c.stop := by
  generalize htext : value.toList = text at h
  cases h with
  | @mk before between behind hbefore hbetween hnone hclose hinner =>
    have hinside : value.toList =
        (before ++ name.toList ++ '(' :: between) ++ name.toList ++ '(' :: behind := by
      simp [htext]
    have hfree : freeAfter true (before ++ name.toList ++ '(' :: between) = true := by
      rw [freeAfter_append, freeAfter_cons]
      exact hbetween
    obtain ⟨c, hc, hplace⟩ := exists_call_of_append hword htext hbefore hclose
    obtain ⟨d, hd, hplace'⟩ := exists_call_of_append hword hinside hfree hinner
    obtain ⟨back, hback, hargs, hstop⟩ := exists_close_of_mem_calls hc
    rw [hplace, htext, List.append_assoc, List.drop_left] at hback
    obtain ⟨-, rfl⟩ := List.cons.inj (List.append_cancel_left hback)
    rw [List.append_assoc] at hargs
    have hle := Chars.length_le_of_closeParen? hnone hargs
    refine ⟨c, hc, d, hd, ?_⟩
    simp only [hplace, hplace', hstop, List.length_append, List.length_cons]
    omega

/-- Calls stand apart unless one of them stands inside of another one. -/
theorem apart_iff (hword : IsWord name) :
    Apart ((Matcher.single name).calls value) ↔ ¬ Nests name.toList value.toList := by
  constructor
  · intro hapart h
    obtain ⟨c, hc, d, hd, hlt, hinside⟩ := exists_calls_of_nests hword h
    exact hapart.start_ne hc hd hlt hinside rfl
  · intro h
    refine Matcher.pairwise_calls_stop.imp_of_mem fun {c d} hc hd hlt => ?_
    by_contra hover
    rw [not_or, Nat.not_le, Nat.not_le] at hover
    rw [name_of_mem_calls hc] at hlt
    exact h (nests_of_mem_calls hc hd hlt hover.1)

/-! ## Edited texts -/

/-- Whether edits write no call of a name, and neither open nor close one. -/
structure Spares (name : List Char) (edits : List Char → List Char → Prop) : Prop where
  isCalm : ∀ {old new}, edits old new → IsCalm old ∧ IsCalm new
  getLast? : ∀ {old new}, edits old new → ∃ c, new.getLast? = some c ∧ Word.isSeparator c = false
  not_stands : ∀ {old new}, edits old new → ¬ Stands true name new

section Edited

variable {edits : List Char → List Char → Prop} {name s t before after : List Char}
variable {news : List (List Char)}
variable (hname : AreWord name) (hspares : Spares name edits)
include hname hspares

/-- A called name in an edited text has been there before, between texts that were edited. -/
theorem exists_of_edited (h : Edited edits true s (before ++ name ++ '(' :: after) news)
    (hfree : freeAfter true before = true) :
    ∃ front back earlier later, s = front ++ name ++ '(' :: back ∧ freeAfter true front = true ∧
      Edited edits true front before earlier ∧ Edited edits true back after later := by
  have hcases := (Swept.of_edited h).stands_cases hname (fun new hnew => by
    obtain ⟨old, hedit⟩ := h.exists_edits hnew
    exact hspares.getLast? hedit) rfl hfree rfl
  rcases hcases with
    ⟨front, back, earlier, later, rfl, hfront, hearlier, -, hback⟩ | ⟨new, hnew, hstands⟩
  · -- The parenthesis follows the name directly, so no edit starts there.
    cases hback with
    | keep _ hrest => exact ⟨front, _, earlier, later, rfl, hfront, hearlier, hrest⟩
  · obtain ⟨old, hedit⟩ := h.exists_edits hnew
    exact absurd hstands (hspares.not_stands hedit)

/-- A call inside of another one in an edited text has been there before. -/
theorem Nests.of_edited (h : Edited edits true s t news) (hnests : Nests name t) :
    Nests name s := by
  have hclosed : ∀ {old new : List Char} {news}, Edited edits true old new news →
      (closeParen? .insideCall old).isSome = (closeParen? .insideCall new).isSome :=
    fun h => h.isSome_closeParen? (fun _ _ => hspares.isCalm) Nesting.isProper_insideCall
  cases hnests with
  | @mk before between behind hbefore hbetween hnone hclose hinner =>
    obtain ⟨front, back, _, _, rfl, hfront, -, hback⟩ := exists_of_edited hname hspares h hbefore
    rw [← hclosed hback] at hclose
    obtain ⟨inside, rest, _, _, rfl, hinside, hmiddle, hrest⟩ :=
      exists_of_edited hname hspares hback hbetween
    rw [← hclosed hrest] at hinner
    rw [← Option.not_isSome_iff_eq_none, ← hclosed hmiddle, Option.not_isSome_iff_eq_none] at hnone
    exact .mk hfront hinside hnone hclose hinner

end Edited

end Gradient
end VendorPrefixing
