import VendorPrefixing.Proofs.Value.Standing

/-!
# Exchanged stretches

Edits at separated places take stretches out of a text and put others in; everything between
them is copied.  Where the stretches are all those that some search finds, what is left between
them holds nothing that the search would find.

Main results:

- Theorem `exchanged_applyEdits`: edits that are carried out together exchange their stretches.
- Theorem `Exchanged.swept`: a text is swept when every place is exchanged that could not stay.
-/

namespace VendorPrefixing

open Word (isSeparator endsHere StartsAt)

/-- `Exchanged start old new position xs s t` says that `t` is `s` with one stretch exchanged for
every one of `xs`, in order: at `start x` stands `old x`, and `t` has `new x` for it.  Places are
counted from `position` characters in front of `s`. -/
inductive Exchanged {α : Type} (start : α → Nat) (old new : α → List Char) :
    Nat → List α → List Char → List Char → Prop
  | rest {position : Nat} (s : List Char) : Exchanged start old new position [] s s
  | next {position : Nat} {x : α} {xs : List α} {s t : List Char} (gap : List Char) :
    start x = position + gap.length →
      Exchanged start old new (start x + (old x).length) xs s t →
        Exchanged start old new position (x :: xs) (gap ++ (old x ++ s)) (gap ++ (new x ++ t))

variable {α : Type} {start : α → Nat} {old new : α → List Char} {xs : List α}
variable {text s t : List Char} {position : Nat}

/-- Edits that are carried out together exchange their stretches, if they do not overlap. -/
theorem exchanged_applyEdits (hne : ∀ x ∈ xs, old x ≠ [])
    (hold : ∀ x ∈ xs, old x <+: text.drop (start x))
    (horder : xs.Pairwise fun x y => start x + (old x).length ≤ start y)
    (hposition : ∀ x ∈ xs, position ≤ start x) :
    Exchanged start old new position xs (text.drop position)
      (applyEdits position (text.drop position)
        (xs.map fun x => ⟨start x, start x + (old x).length, new x⟩)) := by
  induction xs generalizing position with
  | nil => exact .rest _
  | cons x xs ih =>
    obtain ⟨hx, hxs⟩ := List.pairwise_cons.mp horder
    have hle := hposition x List.mem_cons_self
    have hlead := hold x List.mem_cons_self
    have hrest := ih (fun y hy => hne y (List.mem_cons_of_mem x hy))
      (fun y hy => hold y (List.mem_cons_of_mem x hy)) hxs hx
    have hinside : start x ≤ text.length := by
      refine Nat.le_of_not_lt fun hlt => hne x List.mem_cons_self ?_
      rw [List.drop_eq_nil_of_le (by omega)] at hlead
      exact List.prefix_nil.mp hlead
    have hgap : ((text.drop position).take (start x - position)).length = start x - position := by
      rw [List.length_take, List.length_drop]
      omega
    have hs : text.drop position = (text.drop position).take (start x - position) ++
        (old x ++ text.drop (start x + (old x).length)) := by
      obtain ⟨behind, hbehind⟩ := hlead
      rw [Word.drop_of_append hbehind.symm, hbehind, take_append_drop_of_le hle]
    have hstop : position + (start x + (old x).length - position) =
        start x + (old x).length := by omega
    rw [List.map_cons, applyEdits, if_neg (Nat.not_lt_of_le hle), List.drop_drop, hstop,
      List.append_assoc]
    conv => arg 6; rw [hs]
    exact .next _ (by omega) hrest

namespace Exchanged

/-- No stretch stands in front of the text. -/
theorem le_start (h : Exchanged start old new position xs s t) : ∀ x ∈ xs, position ≤ start x := by
  induction h with
  | rest s => exact fun x hx => absurd hx List.not_mem_nil
  | next gap hstart _ ih =>
    refine List.forall_mem_cons.mpr ⟨by omega, fun y hy => ?_⟩
    have := ih y hy
    omega

end Exchanged

/-! ## Sweeping -/

variable {free : Bool} {edits : List Char → List Char → Prop} {stays : List Char → Prop}

/-- A name may start behind a stretch of a text when it may start at the place that follows. -/
theorem freeAfter_iff_startsAt {front : List Char} (htext : text.drop position = front ++ s)
    (hfree : free = true ↔ StartsAt text position) :
    freeAfter free front = true ↔ StartsAt text (position + front.length) := by
  rw [freeAfter]
  cases hlast : front.getLast? with
  | none =>
    rw [List.getLast?_eq_none_iff.mp hlast]
    exact hfree
  | some c =>
    have hpos : 0 < front.length := List.length_pos_iff.mpr fun hnil => by
      rw [hnil] at hlast
      cases hlast
    have hget : text[position + front.length - 1]? = some c := by
      have hindex : position + front.length - 1 = position + (front.length - 1) := by omega
      rw [hindex, ← List.getElem?_drop, htext, List.getElem?_append_left (by omega),
        ← List.getLast?_eq_getElem?]
      exact hlast
    rw [StartsAt, hget]
    constructor
    · exact fun hc => .inr ⟨c, rfl, hc⟩
    · rintro (hzero | ⟨d, hd, hsep⟩)
      · omega
      · cases hd
        exact hsep

/-- A stretch may be kept in front of a swept text if everything in it may stay. -/
theorem Swept.append_left {front : List Char} {news : List (List Char)}
    (htext : text.drop position = front ++ s) (hfree : free = true → StartsAt text position)
    (hstays : ∀ place, position ≤ place → place < position + front.length →
      StartsAt text place → stays (text.drop place))
    (h : Swept edits stays (freeAfter free front) s t news) :
    Swept edits stays free (front ++ s) (front ++ t) news := by
  induction front generalizing free position with
  | nil => exact h
  | cons c front ih =>
    rw [freeAfter_cons] at h
    have hnext : isSeparator c = true → StartsAt text (position + 1) :=
      Word.startsAt_succ htext
    refine keep c (fun hf => ?_) (ih (Word.drop_succ_of_cons htext) hnext ?_ h)
    · have hlt : position < position + (c :: front).length := by
        rw [List.length_cons]
        omega
      have hkept := hstays position (Nat.le_refl _) hlt (hfree hf)
      rwa [htext] at hkept
    · intro place hle hlt
      refine hstays place (by omega) ?_
      rw [List.length_cons]
      omega

/-- A text with exchanged stretches is swept when every place is exchanged that could not stay,
and what is put in is swept as well.  The news are those of all stretches, and `after` says
whether a name may start behind them. -/
theorem Exchanged.swept (after : Bool) {news : α → List (List Char)}
    (h : Exchanged start old new position xs s t) (htext : text.drop position = s)
    (hfree : free = true ↔ StartsAt text position)
    (hne : ∀ x ∈ xs, old x ≠ []) (hstarts : ∀ x ∈ xs, StartsAt text (start x))
    (hafter : ∀ x ∈ xs, freeAfter true (old x) = after)
    (hstays : ∀ place, position ≤ place → StartsAt text place → (∀ x ∈ xs, start x ≠ place) →
      stays (text.drop place))
    (hswept : ∀ x ∈ xs, ∀ rest t later, text.drop (start x) = old x ++ rest →
      Swept edits stays after rest t later →
        Swept edits stays true (old x ++ rest) (new x ++ t) (news x ++ later)) :
    Swept edits stays free s t (xs.flatMap news) := by
  induction h generalizing free with
  | @rest position s =>
    have hnil : Swept edits stays (freeAfter free s) [] [] [] := .nil
    rw [← List.append_nil s] at htext
    have h := hnil.append_left htext hfree.mp fun place hle _ hstart =>
      hstays place hle hstart fun x hx => absurd hx List.not_mem_nil
    rwa [List.append_nil] at h
  | @next position x xs s t gap hstart hrest ih =>
    have hdrop : text.drop (start x) = old x ++ s := by
      rw [hstart, Word.drop_of_append htext]
    have hplace : after = true ↔ StartsAt text (start x + (old x).length) := by
      rw [← hafter x List.mem_cons_self]
      exact freeAfter_iff_startsAt hdrop (iff_of_true rfl (hstarts x List.mem_cons_self))
    have hlater := ih (Word.drop_of_append hdrop) hplace
      (fun y hy => hne y (List.mem_cons_of_mem x hy))
      (fun y hy => hstarts y (List.mem_cons_of_mem x hy))
      (fun y hy => hafter y (List.mem_cons_of_mem x hy))
      (fun place hle hplace hothers => by
        have hpos := List.length_pos_iff.mpr (hne x List.mem_cons_self)
        refine hstays place (by omega) hplace (List.forall_mem_cons.mpr ⟨?_, hothers⟩)
        omega)
      (fun y hy => hswept y (List.mem_cons_of_mem x hy))
    have hexchanged := hswept x List.mem_cons_self _ _ _ hdrop hlater
    have hfront : freeAfter free gap = true := by
      rw [freeAfter_iff_startsAt htext hfree, ← hstart]
      exact hstarts x List.mem_cons_self
    rw [← hfront] at hexchanged
    refine hexchanged.append_left htext hfree.mp fun place hle hlt hplace =>
      hstays place hle hplace (List.forall_mem_cons.mpr ⟨by omega, fun y hy => ?_⟩)
    have := hrest.le_start y hy
    omega

end VendorPrefixing
